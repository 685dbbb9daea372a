/-
# The image producer as a state machine

`producer_sergi.cpp`: `onInterest` fetches the image a request names under
`/pic` and notes the request in `pendingInterest` under the URI of its
component 3; `onData` stores the image, runs `run_tess` on the file and puts a
Data for the request it finds under the URI of the image's component 2;
`onNack` and `onTimeout` only print. Around the handlers stands the Face
(`step`): it delivers the requests the filter lets through, and ends every
outstanding fetch by a Data that satisfies it, a Nack or a timeout.
-/
import IcnDemo.Producer.Paths
import IcnDemo.Lib.Runs

namespace IcnDemo
namespace Producer

open Ndn Lib.Loop

/-- Why an event leads to no state. -/
inductive Stop
  /-- An exception of ndn-cxx. -/
  | thrown (what : Error)
  /-- `Name::get` beyond the end of the name. -/
  | undefined
  /-- The Face does not deliver this event. -/
  | undelivered
deriving DecidableEq, Repr

/-- `std::map<std::string, Name>` -/
abbrev PendingTable := List (Bytes × Name)

/-- `std::map::insert`: an entry that is there stays. -/
def PendingTable.insert (t : PendingTable) (key : Bytes) (name : Name) : PendingTable :=
  if (t.lookup key).isSome then t else t ++ [(key, name)]

structure State where
  pendingInterest : PendingTable
  /-- The image files and their contents, the last write first. -/
  files : List (Bytes × Bytes)
  /-- The fetches under `/pic` not yet ended. -/
  outstanding : List Name
deriving DecidableEq

def State.start : State := ⟨[], [], []⟩

/-- A Data packet the producer puts. -/
structure Packet where
  name : Name
  content : Bytes
deriving DecidableEq

/-- A packet with the fetch and the image that led to it. -/
structure Put where
  fetch : Name
  data : Data
  packet : Packet

/-- `Name::get` -/
def get (name : Name) (i : ℕ) : Except Stop Component :=
  match name[i]? with
  | some c => .ok c
  | none => .error .undefined

def pic : Component := Component.ofString "pic"

/-- The name of the fetch: `Name("/pic/" + a.toUri() + "/" + b.toUri())`. -/
def imgName (lib : TextLib) (a b : Component) : Except Error Name :=
  Name.ofUri lib (ascii "/pic/" ++ a.toUri ++ ascii "/" ++ b.toUri)

def onInterest (lib : TextLib) (s : State) (interest : Name) : Except Stop State := do
  let a ← get interest 2
  let b ← get interest 3
  match imgName lib a b with
  | .error what => .error (.thrown what)
  | .ok imgInterest =>
    .ok { s with
      outstanding := s.outstanding ++ [imgInterest]
      pendingInterest := s.pendingInterest.insert b.toUri interest }

/-- `runTess` stands for `run_tess`, a function of the content of the file it is
given, or of there being none. -/
def onData (runTess : Option Bytes → Bytes) (s : State) (data : Data) :
    Except Stop (State × List Packet) := do
  let c ← get data.name 2
  let filename := imageFile c
  let files := (filename, data.content) :: s.files
  let res := runTess (files.lookup filename)
  match s.pendingInterest.lookup c.toUri with
  | some dataName => .ok ({ s with files := files }, [⟨dataName, res⟩])
  | none => .ok ({ s with files := files }, [])

inductive Event
  | interest (name : Name)
  | data (fetch : Name) (data : Data)
  | nack (fetch : Name)
  | timeout (fetch : Name)

/-- The names the filter `/exec/OCR` lets through. -/
def execOcrPrefix : Name := [Component.ofString "exec", Component.ofString "OCR"]

/-- One event, as the Face delivers it. -/
def step (lib : TextLib) (runTess : Option Bytes → Bytes) (s : State) :
    Event → Except Stop (State × List Put)
  | .interest name =>
    if doesMatch execOcrPrefix name then do
      let s ← onInterest lib s name
      .ok (s, [])
    else .error .undelivered
  | .data fetch data =>
    if fetch ∈ s.outstanding ∧ matchesData fetch data = true then do
      let r ← onData runTess s data
      .ok ({ r.1 with outstanding := r.1.outstanding.erase fetch }, r.2.map (⟨fetch, data, ·⟩))
    else .error .undelivered
  | .nack fetch | .timeout fetch =>
    if fetch ∈ s.outstanding then .ok ({ s with outstanding := s.outstanding.erase fetch }, [])
    else .error .undelivered

/-- A run of the producer from its start. -/
abbrev Run (lib : TextLib) (runTess : Option Bytes → Bytes) :
    List Event → State → List Put → Prop :=
  Lib.Runs.Reaches (step lib runTess) State.start

/-! ### The table -/

theorem lookup_insert (t : PendingTable) (k k' : Bytes) (name : Name) :
    (t.insert k name).lookup k' =
      (t.lookup k').or (if k' = k then some name else none) := by
  unfold PendingTable.insert
  have hone : List.lookup k' [(k, name)] = if k' = k then some name else none := by
    by_cases h : k' = k
    · simp [h]
    · have hb : (k' == k) = false := by simpa using h
      simp [List.lookup_cons, hb, h]
  split
  · rename_i h
    by_cases hk : k' = k
    · subst hk
      rw [Option.or_of_isSome h]
    · simp [hk]
  · rw [List.lookup_append, hone]

theorem mem_insert {t : PendingTable} {k : Bytes} {name : Name} {e : Bytes × Name}
    (h : e ∈ t.insert k name) : e ∈ t ∨ e = (k, name) := by
  unfold PendingTable.insert at h
  split at h
  · exact Or.inl h
  · simpa using h

/-! ### What an event does -/

theorem get_ok {name : Name} {i : ℕ} {c : Component} (h : get name i = .ok c) :
    name[i]? = some c := by
  unfold get at h
  split at h
  · rename_i heq; rw [heq]; exact congrArg some (Except.ok.inj h)
  · cases h

theorem get_of_some {name : Name} {i : ℕ} {c : Component} (h : name[i]? = some c) :
    get name i = .ok c := by
  simp [get, h]

theorem imgUri_eq (a b : Component) : ascii "/pic/" ++ a.toUri ++ ascii "/" ++ b.toUri =
    [pic, a, b].flatMap fun c => 0x2f :: c.toUri := by
  have hpic : ascii "/pic/" = 0x2f :: (pic.toUri ++ [0x2f]) := by decide
  have hslash : ascii "/" = [0x2f] := by decide
  rw [hpic, hslash]
  simp

/-- **The fetch is named by the address and the image of the request.** -/
theorem imgName_eq (lib : TextLib) {a b : Component} (ha : a.Valid) (hb : b.Valid) :
    imgName lib a b = .ok [pic, a, b] := by
  unfold imgName
  rw [imgUri_eq]
  refine Name.ofUri_join_valid lib pic [a, b] fun d hd => ?_
  simp only [List.mem_cons, List.not_mem_nil, or_false] at hd
  rcases hd with rfl | rfl | rfl
  · decide
  · exact ha
  · exact hb

theorem imgName_ok (lib : TextLib) {a b : Component} {name : Name}
    (h : imgName lib a b = .ok name) : name = [pic, a, b] := by
  unfold imgName at h
  rw [imgUri_eq] at h
  exact Name.ofUri_join_ok lib pic [a, b] h

variable {lib : TextLib} {runTess : Option Bytes → Bytes} {s s' : State} {new : List Put}

theorem step_interest {name : Name} (h : step lib runTess s (.interest name) = .ok (s', new)) :
    ∃ a b, name[2]? = some a ∧ name[3]? = some b ∧ new = [] ∧
      s' = { s with
        outstanding := s.outstanding ++ [[pic, a, b]]
        pendingInterest := s.pendingInterest.insert b.toUri name } := by
  rw [step] at h
  split at h
  · obtain ⟨s1, h1, h2⟩ := bind_eq_ok h
    obtain ⟨rfl, rfl⟩ := Prod.mk.inj (Except.ok.inj h2)
    obtain ⟨a, ha, h1⟩ := bind_eq_ok h1
    obtain ⟨b, hb, h1⟩ := bind_eq_ok h1
    cases himg : imgName lib a b with
    | error what => simp [himg] at h1
    | ok img =>
      simp only [himg, Except.ok.injEq] at h1
      obtain rfl := imgName_ok lib himg
      exact ⟨a, b, get_ok ha, get_ok hb, rfl, h1.symm⟩
  · cases h

theorem onData_eq {data : Data} {c : Component} (hc : data.name[2]? = some c) :
    onData runTess s data = .ok ({ s with files := (imageFile c, data.content) :: s.files },
      (s.pendingInterest.lookup c.toUri).toList.map
        fun dataName => ⟨dataName, runTess (some data.content)⟩) := by
  unfold onData
  rw [get_of_some hc, ok_bind]
  cases s.pendingInterest.lookup c.toUri <;> simp

theorem step_data {fetch : Name} {data : Data}
    (h : step lib runTess s (.data fetch data) = .ok (s', new)) :
    fetch ∈ s.outstanding ∧ matchesData fetch data = true ∧
      ∃ c, data.name[2]? = some c ∧
        s' = { s with
          files := (imageFile c, data.content) :: s.files
          outstanding := s.outstanding.erase fetch } ∧
        new = (s.pendingInterest.lookup c.toUri).toList.map
          fun dataName => ⟨fetch, data, ⟨dataName, runTess (some data.content)⟩⟩ := by
  rw [step] at h
  split at h
  · rename_i hdel
    obtain ⟨r, hr, h⟩ := bind_eq_ok h
    obtain ⟨rfl, rfl⟩ := Prod.mk.inj (Except.ok.inj h)
    obtain ⟨c, hc, -⟩ := bind_eq_ok hr
    have hc := get_ok hc
    rw [onData_eq hc, Except.ok.injEq] at hr
    subst hr
    exact ⟨hdel.1, hdel.2, c, hc, rfl, by simp⟩
  · cases h

/-- A Nack or a timeout ends its fetch. -/
theorem step_ended {fetch : Name} {e : Event} (he : e = .nack fetch ∨ e = .timeout fetch)
    (h : step lib runTess s e = .ok (s', new)) :
    s' = { s with outstanding := s.outstanding.erase fetch } ∧ new = [] := by
  rcases he with rfl | rfl
  all_goals
    simp only [step] at h
    split at h
    · obtain ⟨rfl, rfl⟩ := Prod.mk.inj (Except.ok.inj h)
      exact ⟨rfl, rfl⟩
    · cases h

theorem step_ended_mem {fetch : Name} {e : Event} (he : e = .nack fetch ∨ e = .timeout fetch)
    (h : step lib runTess s e = .ok (s', new)) : fetch ∈ s.outstanding := by
  rcases he with rfl | rfl
  all_goals
    simp only [step] at h
    split at h
    · assumption
    · cases h

/-- What satisfies a fetch and has a component 2 has the fetch's. -/
theorem component_of_matches {a b c : Component} {data : Data}
    (h : matchesData [pic, a, b] data = true) (hc : data.name[2]? = some c) : c = b := by
  rcases (matchesData_iff _ _).mp h with ⟨tail, htail⟩ | hfull
  · rw [← htail] at hc
    simpa using hc.symm
  · have hlen := congrArg List.length hfull
    simp only [Data.fullName, List.length_cons, List.length_nil, List.length_append] at hlen
    have := (List.getElem?_eq_some_iff.mp hc).1
    omega

end Producer
end IcnDemo
