/-
# One DHCP event

`dhcp_nfdc.sh`, which dnsmasq runs for every lease event with the action in
`$1` and the address in `$3`: it looks for the faces of the address with
`grep`, destroys them, and creates a face and a route.

`[ "$1"=="add" ]` is a test of one argument, which is not empty, so every action
takes the first branch (`test_isAdd`). And `grep remote=tcp4://$3` keeps the
line of every face whose address starts with `$3`, the dots of `$3` read as
wildcards (`grep_faceLine`). So an event leaves the other addresses alone
exactly when no face of theirs starts like that (`leavesOthers_iff`).
-/
import IcnDemo.Dhcp.Nfd
import IcnDemo.Lib.DecimalText
import IcnDemo.Lib.Grep

namespace IcnDemo
namespace Dhcp

open Lib.Grep Lib.DecimalText

/-! ### Texts -/

def decimal (n : ℕ) : List Char := Nat.toDigits 10 n

/-- The address as `dnsmasq` passes it and `nfdc` prints it. -/
def Address.text (a : Address) : List Char :=
  decimal a.first.toNat ++ '.' :: (decimal a.second.toNat ++ '.' :: (decimal a.third.toNat ++
    '.' :: decimal a.fourth.toNat))

/-- The line `nfdc face list` prints of a face. -/
def faceLine (nfdc : Nfdc) (f : Face) : List Char :=
  "faceid=".toList ++ (decimal f.id ++ ' ' :: ("remote=tcp4://".toList ++
    (f.remote.address.text ++ ':' :: decimal f.remote.port ++ nfdc.details f)))

def isBlank (c : Char) : Bool := c = ' ' || c = '\t'

/-- A face id as `nfdc` reads it. -/
def readId (word : List Char) : Option ℕ :=
  if word ≠ [] ∧ word.all Char.isDigit then some (Nat.ofDigitChars 10 word 0) else none

/-- `[ word ]` -/
def test (word : List Char) : Bool := !word.isEmpty

/-! ### The script -/

/-- `nfdc face list | grep remote=tcp4://$3 > face.list` -/
def faceList (nfdc : Nfdc) (a : Address) (s : Nfd) : List (List Char) :=
  (s.faces.map (faceLine nfdc)).filter (matchesLine (ofText '.' ("remote=tcp4://".toList ++ a.text)))

/-- `/$3` and `/pic/$3` -/
def rootName (a : Address) : Prefix := [a.text]

def picName (a : Address) : Prefix := ["pic".toList, a.text]

/-- The loop over `$(awk '{print $1}' face.list | sed 's/^faceid=//')`. -/
def removeFaces (nfdc : Nfdc) (a : Address) (s : Nfd) : Nfd :=
  let ids := (faceList nfdc a s).map fun line =>
    dropPrefix "faceid=".toList (firstField isBlank line)
  ids.foldl (fun s word => match readId word with
    | some i => (s.routeRemove (rootName a) i).faceDestroy nfdc i
    | none => s) s

/-- `dhcp_nfdc.sh`, with `action` for `$1` and `a` for `$3`. -/
def dhcpNfdc (nfdc : Nfdc) (action : List Char) (a : Address) (s : Nfd) : Nfd :=
  if test (action ++ "==add".toList) then
    let s := removeFaces nfdc a s
    let s := s.faceCreate ⟨a, nfdc.port⟩
    s.routeAdd (picName a) ⟨a, nfdc.port⟩
  else removeFaces nfdc a s

/-- As a pattern, the text of `a` matches a beginning of that of `b`. -/
def Address.covers (a b : Address) : Bool := matchesPrefix (ofText '.' a.text) b.text

theorem Address.covers_self (a : Address) : a.covers a = true := matchesPrefix_self _ _

/-- The test of the script is true of every action. -/
theorem test_isAdd (action : List Char) : test (action ++ "==add".toList) = true := by
  unfold test
  cases action <;> rfl

/-! ### What `grep` finds -/

theorem isDigit_of_mem_decimal {n : ℕ} {c : Char} (h : c ∈ decimal n) : c.isDigit = true :=
  isDigit_of_mem h

theorem notMem_decimal {c : Char} (hc : c.isDigit = false) (n : ℕ) : c ∉ decimal n := by
  intro h
  rw [isDigit_of_mem_decimal h] at hc
  cases hc

theorem decimal_injective {m n : ℕ} (h : decimal m = decimal n) : m = n := by
  unfold decimal at h
  rw [← Nat.ofDigitChars_ten_toDigits (n := m), h, Nat.ofDigitChars_ten_toDigits]

theorem readId_decimal (n : ℕ) : readId (decimal n) = some n := by
  have hall : (decimal n).all Char.isDigit = true :=
    List.all_eq_true.mpr fun c hc => isDigit_of_mem_decimal hc
  unfold readId
  rw [if_pos ⟨Nat.toDigits_ne_nil, hall⟩]
  exact congrArg some Nat.ofDigitChars_ten_toDigits

/-- An address has digits and three dots. -/
theorem Address.notMem_text {c : Char} (hc : c.isDigit = false) (hdot : c ≠ '.') (a : Address) :
    c ∉ a.text := by
  unfold Address.text
  simp [notMem_decimal hc, hdot]

theorem Address.count_text (a : Address) : a.text.count '.' = 3 := by
  have hnone : ∀ n, (decimal n).count '.' = 0 := fun n =>
    List.count_eq_zero.mpr (notMem_decimal (by decide) n)
  unfold Address.text
  simp [List.count_append, hnone]

/-- Different addresses have different texts. -/
theorem Address.text_injective {a b : Address} (h : a.text = b.text) : a = b := by
  have hdot : ∀ n, '.' ∉ decimal n := notMem_decimal (by decide)
  have hoctet : ∀ {x y : UInt8}, decimal x.toNat = decimal y.toNat → x = y := fun hxy =>
    UInt8.toNat_inj.mp (decimal_injective hxy)
  -- up to a dot the texts are those of an octet
  unfold Address.text at h
  obtain ⟨h1, h⟩ := eq_of_separated (hdot _) (hdot _) h
  obtain ⟨h2, h⟩ := eq_of_separated (hdot _) (hdot _) h
  obtain ⟨h3, h4⟩ := eq_of_separated (hdot _) (hdot _) h
  cases a
  cases b
  simp only [Address.mk.injEq]
  exact ⟨hoctet h1, hoctet h2, hoctet h3, hoctet h4⟩

/-- **`grep` keeps the lines of the addresses covered.** -/
theorem grep_faceLine (nfdc : Nfdc) (a : Address) (f : Face) :
    matchesLine (ofText '.' ("remote=tcp4://".toList ++ a.text)) (faceLine nfdc f) =
      a.covers f.remote.address := by
  set b := f.remote.address with hb
  have hr : ('r').isDigit = false := by decide
  have hkey : "remote=tcp4://".toList = 'r' :: "emote=tcp4://".toList := rfl
  have hdetails : ¬ ('r' :: "emote=tcp4://".toList) <:+: nfdc.details f :=
    hkey ▸ nfdc.details_remote f
  have hline : faceLine nfdc f = ("faceid=".toList ++ (decimal f.id ++ [' '])) ++
      (('r' :: "emote=tcp4://".toList) ++ ((b.text ++ ':' :: decimal f.remote.port) ++
        nfdc.details f)) := by
    unfold faceLine
    rw [← hkey, ← hb]
    simp only [List.append_assoc, List.cons_append, List.nil_append]
  have hpat : ofText '.' ("remote=tcp4://".toList ++ a.text) =
      ('r' :: "emote=tcp4://".toList).map some ++ ofText '.' a.text := by
    rw [ofText_append, ofText_literal (by decide), ← hkey]
  have hbefore : 'r' ∉ "faceid=".toList ++ (decimal f.id ++ [' ']) := by
    simp [notMem_decimal hr]
  have hafter : 'r' ∉ b.text ++ ':' :: decimal f.remote.port := by
    simp [notMem_decimal hr, b.notMem_text hr (by decide)]
  rw [hline, hpat, matchesLine_of_key hbefore (by decide) hafter hdetails]
  unfold Address.covers
  rw [List.append_assoc, Bool.eq_iff_iff]
  refine ⟨fun h => ?_, matchesPrefix_append_right _⟩
  -- the colon after `b` is not in `a`, and both have three dots
  exact matchesPrefix_of_terminated (a.notMem_text (by decide) (by decide))
    (by rw [a.count_text, b.count_text]) h

/-- The first field of a line, without its key, is the id. -/
theorem readId_faceLine (nfdc : Nfdc) (f : Face) :
    readId (dropPrefix "faceid=".toList (firstField isBlank (faceLine nfdc f))) = some f.id := by
  have hword : ∀ c ∈ "faceid=".toList ++ decimal f.id, isBlank c = false := by
    intro c hc
    rcases List.mem_append.mp hc with hc | hc
    · have hall : ∀ c ∈ "faceid=".toList, (!isBlank c) = true := List.all_eq_true.mp (by decide)
      simpa using hall c hc
    · have hd := isDigit_of_mem_decimal hc
      rw [Bool.eq_false_iff]
      intro hblank
      simp only [isBlank, Bool.or_eq_true, decide_eq_true_eq] at hblank
      rcases hblank with rfl | rfl <;> cases hd
  have hfield : firstField isBlank (faceLine nfdc f) = "faceid=".toList ++ decimal f.id := by
    unfold faceLine
    rw [← List.append_assoc]
    exact firstField_eq hword (by simp) rfl
  rw [hfield, dropPrefix_append, readId_decimal]

/-! ### What an event does -/

section Spec

variable (nfdc : Nfdc) (a : Address) (s : Nfd)

/-- The ids of the faces that are destroyed. -/
def coveredIds : List ℕ := (s.faces.filter fun f => a.covers f.remote.address).map Face.id

theorem removeFaces_eq : removeFaces nfdc a s =
    (coveredIds a s).foldl (fun s i => (s.routeRemove (rootName a) i).faceDestroy nfdc i) s := by
  have hlist : faceList nfdc a s =
      (s.faces.filter fun f => a.covers f.remote.address).map (faceLine nfdc) := by
    unfold faceList
    rw [List.filter_map]
    congr 1
    exact List.filter_congr fun f _ => grep_faceLine nfdc a f
  unfold removeFaces coveredIds
  rw [hlist]
  dsimp only
  rw [List.map_map, List.foldl_map, List.foldl_map]
  congr 1
  funext s f
  rw [Function.comp_apply, readId_faceLine]

/-- The routes left after one turn of the loop. -/
theorem destroy_routes (i : ℕ) : ((s.routeRemove (rootName a) i).faceDestroy nfdc i).routes =
    s.routes.filter fun r => r.face ≠ i ∨ nfdc.cascade = false ∧ r.name ≠ rootName a := by
  unfold Nfd.faceDestroy Nfd.routeRemove
  dsimp only
  by_cases hc : nfdc.cascade = true
  · rw [if_pos hc, List.filter_filter]
    apply List.filter_congr
    intro r _
    obtain ⟨name, face⟩ := r
    by_cases h1 : face = i <;> simp [h1, hc]
  · rw [if_neg hc]
    apply List.filter_congr
    intro r _
    obtain ⟨name, face⟩ := r
    by_cases h1 : face = i <;> simp [h1, hc]

/-- What is left after the faces `ids` are destroyed. -/
theorem foldl_destroy : ∀ (ids : List ℕ) (s : Nfd),
    let s' := ids.foldl (fun s i => (s.routeRemove (rootName a) i).faceDestroy nfdc i) s
    s'.faces = s.faces.filter (fun f => f.id ∉ ids) ∧
    s'.routes = s.routes.filter
      (fun r => r.face ∉ ids ∨ nfdc.cascade = false ∧ r.name ≠ rootName a) ∧
    s'.next = s.next
  | [], s => by simp
  | i :: ids, s => by
    obtain ⟨hfaces, hroutes, hnext⟩ :=
      foldl_destroy ids ((s.routeRemove (rootName a) i).faceDestroy nfdc i)
    refine ⟨?_, ?_, hnext⟩
    · rw [List.foldl_cons, hfaces]
      show (s.faces.filter _).filter _ = _
      rw [List.filter_filter]
      apply List.filter_congr
      intro f _
      simp [Bool.and_comm]
    · rw [List.foldl_cons, hroutes, destroy_routes, List.filter_filter]
      apply List.filter_congr
      intro r _
      rw [Bool.eq_iff_iff]
      simp only [Bool.and_eq_true, decide_eq_true_eq, List.mem_cons]
      tauto

theorem mem_coveredIds {f : Face} (hf : f ∈ s.faces) :
    f.id ∈ coveredIds a s ↔ a.covers f.remote.address = true := by
  unfold coveredIds
  rw [List.mem_map]
  refine ⟨fun ⟨g, hg, hid⟩ => ?_, fun hcov => ⟨f, List.mem_filter.mpr ⟨hf, hcov⟩, rfl⟩⟩
  rw [List.mem_filter] at hg
  rw [← List.inj_on_of_nodup_map s.nodup hg.1 hf hid]
  exact hg.2

/-- **The loop destroys the faces of the addresses covered.** -/
theorem removeFaces_spec :
    (removeFaces nfdc a s).faces = s.faces.filter (fun f => !a.covers f.remote.address) ∧
    (removeFaces nfdc a s).routes = s.routes.filter
      (fun r => r.face ∉ coveredIds a s ∨ nfdc.cascade = false ∧ r.name ≠ rootName a) ∧
    (removeFaces nfdc a s).next = s.next := by
  rw [removeFaces_eq]
  obtain ⟨hfaces, hroutes, hnext⟩ := foldl_destroy nfdc a (coveredIds a s) s
  refine ⟨?_, hroutes, hnext⟩
  rw [hfaces]
  apply List.filter_congr
  intro f hf
  rw [decide_not, Bool.not_inj_iff, Bool.eq_iff_iff, decide_eq_true_iff]
  exact mem_coveredIds a s hf

/-- **What an event does, whatever its action**: it destroys the faces of the
addresses covered and makes one face and one route for its own. -/
theorem dhcpNfdc_spec (action : List Char) :
    (dhcpNfdc nfdc action a s).faces =
      s.faces.filter (fun f => !a.covers f.remote.address) ++ [⟨s.next, ⟨a, nfdc.port⟩⟩] ∧
    (dhcpNfdc nfdc action a s).routes =
      (s.routes.filter
        (fun r => r.face ∉ coveredIds a s ∨ nfdc.cascade = false ∧ r.name ≠ rootName a)).insert
        ⟨picName a, s.next⟩ ∧
    (dhcpNfdc nfdc action a s).next = s.next + 1 := by
  obtain ⟨hfaces, hroutes, hnext⟩ := removeFaces_spec nfdc a s
  have hnone : ∀ f ∈ (removeFaces nfdc a s).faces, f.remote ≠ ⟨a, nfdc.port⟩ := by
    rw [hfaces]
    intro f hf hremote
    have hcov := (List.mem_filter.mp hf).2
    rw [hremote, a.covers_self] at hcov
    cases hcov
  obtain ⟨h1, h2, h3⟩ := Nfd.routeAdd_faceCreate hnone (picName a)
  unfold dhcpNfdc
  rw [if_pos (test_isAdd action)]
  dsimp only
  rw [h1, h2, h3, hfaces, hroutes, hnext]
  exact ⟨rfl, rfl, rfl⟩

end Spec

/-! ### The other addresses -/

/-- The faces to `b`. -/
def facesOf (b : Address) (s : Nfd) : List Face :=
  s.faces.filter fun f => f.remote.address = b

/-- The routes under `/pic/b`. -/
def routesUnder (b : Address) (s : Nfd) : List Route :=
  s.routes.filter fun r => picName b <+: r.name

variable {nfdc : Nfdc} {a : Address} {s : Nfd}

theorem not_picName_prefix_rootName (b : Address) : ¬ picName b <+: rootName a := by
  intro h
  have := h.length_le
  simp [picName, rootName] at this

theorem picName_prefix_picName {b : Address} : picName b <+: picName a ↔ b = a := by
  unfold picName
  rw [List.prefix_cons_inj, List.prefix_cons_iff]
  refine ⟨fun h => ?_, fun h => ?_⟩
  · rcases h with h | ⟨t, h, -⟩
    · cases h
    · exact Address.text_injective (List.cons.inj h).1
  · subst h
    exact Or.inr ⟨[], rfl, List.nil_prefix⟩

theorem facesOf_dhcpNfdc {b : Address} (hb : b ≠ a) (action : List Char) :
    facesOf b (dhcpNfdc nfdc action a s) =
      (facesOf b s).filter fun f => !a.covers f.remote.address := by
  unfold facesOf
  rw [(dhcpNfdc_spec nfdc a s action).1, List.filter_append, List.filter_filter,
    List.filter_filter]
  have hnew : [(⟨s.next, ⟨a, nfdc.port⟩⟩ : Face)].filter (fun f => f.remote.address = b) = [] := by
    rw [List.filter_eq_nil_iff]
    intro f hf
    rw [List.mem_singleton.mp hf, decide_eq_true_eq]
    exact Ne.symm hb
  rw [hnew, List.append_nil]
  exact List.filter_congr fun f _ => Bool.and_comm _ _

theorem routesUnder_dhcpNfdc {b : Address} (hb : b ≠ a) (action : List Char) :
    routesUnder b (dhcpNfdc nfdc action a s) =
      (routesUnder b s).filter fun r => r.face ∉ coveredIds a s ∨ nfdc.cascade = false := by
  unfold routesUnder
  rw [(dhcpNfdc_spec nfdc a s action).2.1]
  have hinsert : ∀ l : List Route, (l.insert ⟨picName a, s.next⟩).filter
      (fun r => picName b <+: r.name) = l.filter fun r => picName b <+: r.name := by
    intro l
    by_cases hmem : (⟨picName a, s.next⟩ : Route) ∈ l
    · rw [List.insert_of_mem hmem]
    · rw [List.insert_of_not_mem hmem, List.filter_cons_of_neg]
      rw [decide_eq_true_eq, picName_prefix_picName]
      exact hb
  rw [hinsert, List.filter_filter, List.filter_filter]
  apply List.filter_congr
  intro r _
  rw [Bool.eq_iff_iff]
  simp only [Bool.and_eq_true, decide_eq_true_eq]
  have hroot : picName b <+: r.name → r.name ≠ rootName a := fun hp heq =>
    not_picName_prefix_rootName b (heq ▸ hp)
  tauto

/-- **An event leaves the other addresses alone exactly when it covers none of
their faces.** If the routes of a destroyed face go with it, there must be no
route of another address through a face covered, either. -/
theorem leavesOthers_iff (nfdc : Nfdc) (s : Nfd) (action : List Char) (a : Address) :
    (∀ b, b ≠ a → facesOf b (dhcpNfdc nfdc action a s) = facesOf b s ∧
      routesUnder b (dhcpNfdc nfdc action a s) = routesUnder b s) ↔
    (∀ f ∈ s.faces, a.covers f.remote.address = true → f.remote.address = a) ∧
    (nfdc.cascade = true → ∀ f ∈ s.faces, a.covers f.remote.address = true →
      ∀ r ∈ s.routes, r.face = f.id → ∀ b, b ≠ a → ¬ picName b <+: r.name) := by
  refine ⟨fun h => ⟨fun f hf hcov => ?_, fun hcas f hf hcov r hr hface b hb hp => ?_⟩,
    fun ⟨hfaces, hroutes⟩ b hb => ⟨?_, ?_⟩⟩
  · by_contra hne
    have hkept := (h _ hne).1
    rw [facesOf_dhcpNfdc hne, List.filter_eq_self] at hkept
    have := hkept f (List.mem_filter.mpr ⟨hf, decide_eq_true rfl⟩)
    rw [hcov] at this
    cases this
  · have hkept := (h b hb).2
    rw [routesUnder_dhcpNfdc hb, List.filter_eq_self] at hkept
    have := hkept r (List.mem_filter.mpr ⟨hr, decide_eq_true hp⟩)
    rw [decide_eq_true_eq, hface, mem_coveredIds a s hf, hcov, hcas] at this
    simp at this
  · rw [facesOf_dhcpNfdc hb, List.filter_eq_self]
    intro f hf
    obtain ⟨hf, hadr⟩ := List.mem_filter.mp hf
    rw [decide_eq_true_eq] at hadr
    rw [Bool.not_eq_true', Bool.eq_false_iff]
    intro hcov
    exact hb (hadr ▸ hfaces f hf hcov)
  · rw [routesUnder_dhcpNfdc hb, List.filter_eq_self]
    intro r hr
    obtain ⟨hr, hp⟩ := List.mem_filter.mp hr
    rw [decide_eq_true_eq] at hp ⊢
    by_cases hcas : nfdc.cascade = false
    · exact Or.inr hcas
    · refine Or.inl fun hmem => ?_
      obtain ⟨f, hf, hid⟩ := List.mem_map.mp hmem
      obtain ⟨hf, hcov⟩ := List.mem_filter.mp hf
      exact hroutes (by simpa using hcas) f hf hcov r hr hid.symm b hb hp

/-- The Pi, at `10.0.0.254`. -/
def piNfdc : Nfdc where
  port := 6363
  cascade := true
  details _ := " local=tcp4://10.0.0.254:6363".toList
  details_remote _ := by decide

def phone (n : UInt8) : Address := ⟨10, 0, 0, n⟩

/-- The phone at `10.0.0.10` loses its face when the one at `10.0.0.1` comes. -/
theorem neighbour_loses_face : phone 10 ≠ phone 1 ∧
    let s := dhcpNfdc piNfdc "add".toList (phone 10) (Nfd.empty 256)
    facesOf (phone 10) s = [⟨256, ⟨phone 10, 6363⟩⟩] ∧
    facesOf (phone 10) (dhcpNfdc piNfdc "add".toList (phone 1) s) = [] := by
  decide +kernel

end Dhcp
end IcnDemo
