/-
# The files the producers name after the network

`producer_sergi.cpp` writes each image it receives to a file named by the URI
of a name component, and `producer.cpp` runs the recogniser on a path made from
the URI of the Interest. Neither leaves its directory, whatever bytes the name
holds, and different names give different files (`paths_confined`).
-/
import IcnDemo.Ndn.Name

namespace IcnDemo
namespace Producer

open Ndn Lib.Codec

/-- The directory of `producer_sergi.cpp`. -/
def dataDirectory : Bytes := ascii "/home/pi/icn_demo/data/"

/-- The file `onData` of `producer_sergi.cpp` writes for a component. -/
def imageFile (c : Component) : Bytes := dataDirectory ++ c.toUri

/-- `std::string::erase(0, n)` and `insert(0, s)`, as `producer.cpp` makes a path of
the Interest's URI. -/
def imagePath (interest : Name) : Bytes :=
  let img := interest.toUri
  let img := img.drop 13
  ascii "../data/" ++ img

/-- The names the filter `/exec/testApp` lets through. -/
def testAppPrefix : Name := [Component.ofString "exec", Component.ofString "testApp"]

/-- `InterestFilter::doesMatch`, for a filter without a regular expression. -/
def doesMatch (filter interest : Name) : Bool := filter.isPrefixOf interest

theorem testAppPrefix_ofUri (lib : TextLib) :
    Name.ofUri lib (ascii "/exec/testApp") = .ok testAppPrefix := by
  have huri : ascii "/exec/testApp" = testAppPrefix.flatMap fun c => 0x2f :: c.toUri := by decide
  rw [huri]
  exact Name.ofUri_join_valid lib _ _ (by decide)

/-- A file name: one that names neither a directory above nor one below. -/
def IsFileName (s : Bytes) : Prop :=
  s ≠ [] ∧ s ≠ ascii "." ∧ s ≠ ascii ".." ∧ (0x2f : UInt8) ∉ s ∧ (0x00 : UInt8) ∉ s

instance (s : Bytes) : Decidable (IsFileName s) := inferInstanceAs (Decidable (_ ∧ _))

/-- A URI of dots only has three at least. -/
theorem three_le_of_dots {c : Component} (h : Component.gotNoNonDot c.toUri = true) :
    3 ≤ c.toUri.length := by
  obtain ⟨t, v⟩ := c
  cases t with
  | implicitSha256DigestComponent =>
    have heq := List.all_eq_true.mp h 0x3d ((Component.mem_toUri_eq_iff _).mpr rfl)
    exact absurd heq (by decide)
  | nameComponent =>
    cases hv : Component.gotNoNonDot v with
    | true => simp [Component.toUri, hv, ascii]
    | false =>
      -- an escaped text of dots only would be its own value
      have hno : (0x25 : UInt8) ∉ Component.toUri ⟨.nameComponent, v⟩ := by
        intro hmem
        exact absurd (List.all_eq_true.mp h _ hmem) (by decide)
      have := Component.unescape_toUri_escaped hv
      rw [Component.unescape_eq_self hno] at this
      rw [this, hv] at h
      cases h

theorem isFileName_toUri (c : Component) : IsFileName c.toUri := by
  refine ⟨Component.toUri_ne_nil c, ?_, ?_, Name.not_slash_mem_toUri c, Name.not_nul_mem_toUri c⟩
  · intro h
    have := three_le_of_dots (c := c) (by rw [h]; decide)
    rw [h] at this
    exact absurd this (by decide)
  · intro h
    have := three_le_of_dots (c := c) (by rw [h]; decide)
    rw [h] at this
    exact absurd this (by decide)

theorem imageFile_injective {c c' : Component} (h : imageFile c = imageFile c') : c = c' :=
  Component.toUri_injective (List.append_cancel_left h)

/-- The path made of an Interest the filter lets through. -/
theorem imagePath_eq {interest : Name} (h : doesMatch testAppPrefix interest = true) :
    ∃ rest, interest = testAppPrefix ++ rest ∧
      imagePath interest = ascii "../data/" ++ rest.flatMap fun c => 0x2f :: c.toUri := by
  obtain ⟨rest, rfl⟩ := List.isPrefixOf_iff_prefix.mp h
  refine ⟨rest, rfl, ?_⟩
  have huri : (testAppPrefix ++ rest).toUri =
      ascii "/exec/testApp" ++ rest.flatMap fun c => 0x2f :: c.toUri := by
    have hprefix : (testAppPrefix.flatMap fun c => 0x2f :: c.toUri) = ascii "/exec/testApp" := by
      decide
    rw [← hprefix, ← List.flatMap_append]
    rfl
  have hdrop : (ascii "/exec/testApp" ++ rest.flatMap fun c => 0x2f :: c.toUri).drop 13 =
      rest.flatMap fun c => 0x2f :: c.toUri :=
    List.drop_left' (by decide : (ascii "/exec/testApp").length = 13)
  simp only [imagePath, huri, hdrop]

/-- **No name leads out of the data directory, and no two to one file.** -/
theorem paths_confined :
    (∀ c : Component, ∃ s, imageFile c = dataDirectory ++ s ∧ IsFileName s) ∧
    (∀ c c' : Component, imageFile c = imageFile c' → c = c') ∧
    (∀ interest : Name, doesMatch testAppPrefix interest = true →
      ∃ segments : List Bytes, (∀ s ∈ segments, IsFileName s) ∧
        imagePath interest = ascii "../data/" ++ segments.flatMap fun s => 0x2f :: s) ∧
    (∀ interest interest' : Name, doesMatch testAppPrefix interest = true →
      doesMatch testAppPrefix interest' = true → imagePath interest = imagePath interest' →
      interest = interest') := by
  refine ⟨fun c => ⟨c.toUri, rfl, isFileName_toUri c⟩, fun _ _ => imageFile_injective,
    fun interest h => ?_, fun interest interest' h h' heq => ?_⟩
  · obtain ⟨rest, -, hpath⟩ := imagePath_eq h
    refine ⟨rest.map Component.toUri, fun s hs => ?_, by rw [hpath, List.flatMap_map]⟩
    obtain ⟨c, -, rfl⟩ := List.mem_map.mp hs
    exact isFileName_toUri c
  · obtain ⟨rest, rfl, hpath⟩ := imagePath_eq h
    obtain ⟨rest', rfl, hpath'⟩ := imagePath_eq h'
    rw [hpath, hpath'] at heq
    rw [Name.join_injective (List.append_cancel_left heq)]

/-- A component of two dots below `/exec/testApp`. -/
theorem paths_confined_dots :
    ∃ segments : List Bytes, (∀ s ∈ segments, IsFileName s) ∧
      imagePath (testAppPrefix ++ [Component.ofString ".."]) =
        ascii "../data/" ++ segments.flatMap fun s => 0x2f :: s :=
  paths_confined.2.2.1 _ (by decide)

end Producer
end IcnDemo
