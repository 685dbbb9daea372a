/-
# Runs of the strategy of any length

A run from `iter` at 0 ends exactly when every remainder in it is defined
(`serve_ok_iff`), and then its calls are those the number of new Interests
before each tells (`serve_call`), `iter` having wrapped around or not.

A FIB entry without nexthops divides by zero: the guard `it <= nexthops.end()`
lets the empty list through (`arithmetic_defined_iff`). And there is no search
for a nexthop that may be used: a new Interest is rejected whenever the one
selected may not (`forwarded_iff`).
-/
import IcnDemo.RoundRobin.Strategy

namespace IcnDemo
namespace RoundRobin

open Lib.Loop

variable {Face : Type}

/-! ### What a run does -/

/-- A call that finds `k` new Interests before it. -/
structure CallAt (k : ℕ) (a : Arrival Face) (c : Call Face) : Prop where
  before : c.before = toInt k
  after : c.after = toInt (k + if a.isNew then 1 else 0 : ℕ)
  quiet : a.hasPendingOutRecords = true → c.reply = ⟨none, []⟩
  selects : a.hasPendingOutRecords = false →
    ∃ f, a.nexthops[hopIndex k a.nexthops.length]? = some f ∧
      c.reply = replyAt a (hopIndex k a.nexthops.length) f

theorem newCount_take_succ (a : Arrival Face) (as : List (Arrival Face)) (k i : ℕ) :
    k + newCount ((a :: as).take (i + 1)) =
      (k + if a.isNew then 1 else 0) + newCount (as.take i) := by
  rw [List.take_succ_cons, newCount_cons]
  omega

/-- **A run ends exactly when every remainder in it is defined.** -/
theorem serve_ok_iff : ∀ (as : List (Arrival Face)) (k : ℕ),
    (∃ calls, serve (toInt k) as = .ok calls) ↔
      ∀ i a, as[i]? = some a → a.isNew = true →
        Divides (k + newCount (as.take i)) a.nexthops.length
  | [], _ => by simp [serve]
  | b :: as, k => by
    have hzero : newCount ((b :: as).take 0) = 0 := rfl
    rw [forall_getElem?_cons, hzero, Nat.add_zero]
    simp only [newCount_take_succ]
    rw [← serve_ok_iff as]
    cases hp : b.hasPendingOutRecords with
    | true =>
      have hold : b.isNew = false := by rw [Arrival.isNew, hp]; rfl
      rw [serve, afterReceiveInterest_pending _ hp, ok_bind, exists_bind_ok, hold]
      simp
    | false =>
      have hnew : b.isNew = true := by rw [Arrival.isNew, hp]; rfl
      rw [hnew, if_pos rfl]
      by_cases hd : Divides k b.nexthops.length
      · have hf := List.getElem?_eq_getElem (hopIndex_lt hd.1 k)
        rw [serve, afterReceiveInterest_at hp hd hf, ok_bind, exists_bind_ok]
        dsimp only
        exact (and_iff_right fun _ => hd).symm
      · rw [serve, afterReceiveInterest_undivided hp hd]
        refine iff_of_false ?_ fun hdiv => hd (hdiv.1 rfl)
        rintro ⟨_, hok⟩
        cases hok

/-- Where a call leaves `iter`, and what it replies. -/
theorem callAt_of_ok {k : ℕ} {a : Arrival Face} {r : ℤ × Reply Face}
    (h : afterReceiveInterest (toInt k) a = .ok r) : CallAt k a ⟨toInt k, r.1, r.2⟩ := by
  cases hp : a.hasPendingOutRecords with
  | true =>
    rw [afterReceiveInterest_pending _ hp, Except.ok.injEq] at h
    subst h
    exact ⟨by simp, by simp [Arrival.isNew, hp], fun _ => rfl, by simp [hp]⟩
  | false =>
    by_cases hd : Divides k a.nexthops.length
    · have hf := List.getElem?_eq_getElem (hopIndex_lt hd.1 k)
      rw [afterReceiveInterest_at hp hd hf, Except.ok.injEq] at h
      subst h
      exact ⟨by simp, by simp [Arrival.isNew, hp], by simp [hp], fun _ => ⟨_, hf, rfl⟩⟩
    · rw [afterReceiveInterest_undivided hp hd] at h
      cases h

/-- The first call of a run, and the run after it. -/
theorem serve_cons {b : Arrival Face} {as : List (Arrival Face)} {k : ℕ}
    {calls : List (Call Face)} (h : serve (toInt k) (b :: as) = .ok calls) :
    ∃ c rest, calls = c :: rest ∧ CallAt k b c ∧
      serve (toInt (k + if b.isNew then 1 else 0 : ℕ)) as = .ok rest := by
  unfold serve at h
  obtain ⟨r, hb, h⟩ := bind_eq_ok h
  obtain ⟨rest, hrest, h⟩ := bind_eq_ok h
  have hcall := callAt_of_ok hb
  have hiter : r.1 = toInt (k + if b.isNew then 1 else 0 : ℕ) := hcall.after
  rw [hiter] at hrest
  exact ⟨_, rest, (Except.ok.inj h).symm, hcall, hrest⟩

/-- **The calls of a run**, each from the number of new Interests before it. -/
theorem serve_call {as : List (Arrival Face)} {k : ℕ} {calls : List (Call Face)}
    (h : serve (toInt k) as = .ok calls) : ∀ i a, as[i]? = some a →
      ∃ c, calls[i]? = some c ∧ CallAt (k + newCount (as.take i)) a c := by
  induction as generalizing k calls with
  | nil =>
    intro i a ha
    cases ha
  | cons b as ih =>
    obtain ⟨c, rest, rfl, hcall, hrest⟩ := serve_cons h
    rw [forall_getElem?_cons]
    refine ⟨⟨c, rfl, hcall⟩, fun i a ha => ?_⟩
    rw [newCount_take_succ]
    exact ih hrest i a ha

theorem serve_length {as : List (Arrival Face)} {k : ℕ} {calls : List (Call Face)}
    (h : serve (toInt k) as = .ok calls) : calls.length = as.length := by
  induction as generalizing k calls with
  | nil =>
    cases h
    rfl
  | cons b as ih =>
    obtain ⟨c, rest, rfl, -, hrest⟩ := serve_cons h
    exact congrArg Nat.succ (ih hrest)

/-! ### Entries without nexthops -/

/-- The remainder is defined unless the number of nexthops is a multiple of `2 ^ 32`,
or one less than a multiple while `iter` is the least `int`. -/
theorem divides_iff (k n : ℕ) : Divides k n ↔
    ¬ 2 ^ 32 ∣ n ∧ ¬ (k % 2 ^ 32 = 2 ^ 31 ∧ n % 2 ^ 32 = 2 ^ 32 - 1) := by
  obtain ⟨p, hp⟩ := toInt_eq k
  obtain ⟨q, hq⟩ := toInt_eq n
  have hk := toInt_bounds k
  have hn := toInt_bounds n
  have hleast : toInt k = -2 ^ 31 ↔ k % 2 ^ 32 = 2 ^ 31 := by omega
  have hminus : toInt n = -1 ↔ n % 2 ^ 32 = 2 ^ 32 - 1 := by omega
  unfold Divides
  rw [ne_eq, toInt_eq_zero_iff, hleast, hminus]

/-- **When the arithmetic of a run is defined**, where `++iter` wraps around. An entry
without nexthops is a multiple of `2 ^ 32`, too, and ends the run. -/
theorem arithmetic_defined_iff (as : List (Arrival Face)) :
    (∃ calls, serve 0 as = .ok calls ∧ ∀ (i : ℕ) (a : Arrival Face) (c : Call Face),
      as[i]? = some a → calls[i]? = some c → a.isNew = true → a.nexthops = [] →
        c.reply.actions = [.rejectPendingInterest]) ↔
    ∀ i a, as[i]? = some a → a.isNew = true → ¬ 2 ^ 32 ∣ a.nexthops.length ∧
      ¬ (newCount (as.take i) % 2 ^ 32 = 2 ^ 31 ∧ a.nexthops.length % 2 ^ 32 = 2 ^ 32 - 1) := by
  have hrun := serve_ok_iff as 0
  simp only [Nat.zero_add, divides_iff] at hrun
  rw [← hrun]
  constructor
  · intro ⟨calls, hok, _⟩
    exact ⟨calls, hok⟩
  · intro ⟨calls, hok⟩
    refine ⟨calls, hok, fun i a c ha _ hnew hnone => ?_⟩
    obtain ⟨hdiv, -⟩ := hrun.mp ⟨calls, hok⟩ i a ha hnew
    rw [hnone] at hdiv
    exact absurd (dvd_zero _) hdiv

/-- An Interest for an entry without nexthops. -/
theorem no_nexthops_undefined : serve 0 [(⟨false, [], fun _ => false, fun _ => true⟩ :
    Arrival ℕ)] = .error .undefined := rfl

/-! ### Nexthops that may be used -/

/-- The Interest is sent where it may be, if anywhere, and rejected only if it may be
sent nowhere. -/
structure Forwarded (a : Arrival Face) (r : Reply Face) : Prop where
  sent : (∃ f ∈ a.nexthops, a.eligible f = true) →
    ∃ f ∈ a.nexthops, a.eligible f = true ∧ r.actions = [.sendInterest f]
  rejected : .rejectPendingInterest ∈ r.actions → ∀ f ∈ a.nexthops, a.eligible f = false

/-- A reply forwards exactly when, if a nexthop may be used, the one selected may. -/
theorem forwarded_replyAt {a : Arrival Face} {i : ℕ} {f : Face} (hf : a.nexthops[i]? = some f) :
    Forwarded a (replyAt a i f) ↔
      ((∃ f ∈ a.nexthops, a.eligible f = true) → a.eligible f = true) := by
  have hmem := List.mem_of_getElem? hf
  unfold replyAt
  cases he : a.eligible f with
  | true =>
    refine iff_of_true ⟨fun _ => ⟨f, hmem, he, rfl⟩, fun hrej => ?_⟩ fun _ => rfl
    simp at hrej
  | false =>
    constructor
    · intro hfwd hex
      obtain ⟨g, -, -, hsend⟩ := hfwd.sent hex
      simp at hsend
    · intro hno
      refine ⟨fun hex => ?_, fun _ g hg => ?_⟩
      · cases hno hex
      · rw [Bool.eq_false_iff]
        intro hg'
        cases hno ⟨g, hg, hg'⟩

/-- In a run that ends, what the call of a new Interest is. -/
theorem serve_new {as : List (Arrival Face)} {calls : List (Call Face)}
    (h : serve 0 as = .ok calls) {i : ℕ} {a : Arrival Face} (ha : as[i]? = some a)
    (hnew : a.isNew = true) :
    ∃ c f, calls[i]? = some c ∧
      a.nexthops[hopIndex (newCount (as.take i)) a.nexthops.length]? = some f ∧
      c.reply = replyAt a (hopIndex (newCount (as.take i)) a.nexthops.length) f := by
  obtain ⟨c, hc, hcall⟩ := serve_call (k := 0) h i a ha
  rw [Nat.zero_add] at hcall
  have hp : a.hasPendingOutRecords = false := by simpa [Arrival.isNew] using hnew
  obtain ⟨f, hf, hreply⟩ := hcall.selects hp
  exact ⟨c, f, hc, hf, hreply⟩

/-- **A run forwards what can be forwarded exactly when it selects so.** -/
theorem forwarded_iff (as : List (Arrival Face)) :
    (∃ calls, serve 0 as = .ok calls ∧ ∀ (i : ℕ) (a : Arrival Face) (c : Call Face),
      as[i]? = some a → calls[i]? = some c → a.isNew = true → Forwarded a c.reply) ↔
    ∀ i a, as[i]? = some a → a.isNew = true →
      Divides (newCount (as.take i)) a.nexthops.length ∧
      ((∃ f ∈ a.nexthops, a.eligible f = true) →
        ∃ f, a.nexthops[hopIndex (newCount (as.take i)) a.nexthops.length]? = some f ∧
          a.eligible f = true) := by
  have hrun := serve_ok_iff as 0
  simp only [Nat.zero_add] at hrun
  constructor
  · rintro ⟨calls, hok, hall⟩ i a ha hn
    refine ⟨hrun.mp ⟨calls, hok⟩ i a ha hn, fun hex => ?_⟩
    obtain ⟨c, f, hc, hf, hreply⟩ := serve_new hok ha hn
    have hfwd := hall i a c ha hc hn
    rw [hreply, forwarded_replyAt hf] at hfwd
    exact ⟨f, hf, hfwd hex⟩
  · intro h
    obtain ⟨calls, hok⟩ := hrun.mpr fun i a ha hn => (h i a ha hn).1
    refine ⟨calls, hok, fun i a c ha hc hn => ?_⟩
    obtain ⟨c', f, hc', hf, hreply⟩ := serve_new hok ha hn
    obtain rfl : c = c' := Option.some.inj (hc.symm.trans hc')
    rw [hreply, forwarded_replyAt hf]
    intro hex
    obtain ⟨g, hg, hel⟩ := (h i a ha hn).2 hex
    rw [hf, Option.some.injEq] at hg
    rw [hg]
    exact hel

/-- Two nexthops, of which only the second may be used: the Interest is rejected. -/
theorem eligible_rejected : ∃ a : Arrival ℕ, (∃ f ∈ a.nexthops, a.eligible f = true) ∧
    serve 0 [a] = .ok [⟨0, 1, ⟨some 0, [.rejectPendingInterest]⟩⟩] :=
  ⟨⟨false, [10, 20], fun f => f = 10, fun _ => true⟩, by decide, by decide⟩

end RoundRobin
end IcnDemo
