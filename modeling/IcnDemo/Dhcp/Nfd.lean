/-
# The forwarder as `nfdc` sees it

The faces of NFD, each an id and a remote TCP address, and the routes through
them; what `nfdc` prints of the faces and what its commands do. NFD numbers the
faces it creates one after the other, so ids do not repeat (`Nfd`).
-/
import Mathlib.Data.List.Nodup
import Mathlib.Data.Nat.Notation
import Mathlib.Tactic.Common

namespace IcnDemo
namespace Dhcp

/-- An IPv4 address. -/
structure Address where
  first : UInt8
  second : UInt8
  third : UInt8
  fourth : UInt8
deriving DecidableEq

/-- `tcp4://<address>:<port>` -/
structure Remote where
  address : Address
  port : ℕ
deriving DecidableEq

structure Face where
  id : ℕ
  remote : Remote
deriving DecidableEq

/-- A name prefix, by the texts of its components. -/
abbrev Prefix := List (List Char)

structure Route where
  name : Prefix
  face : ℕ
deriving DecidableEq

/-- The faces and the routes of a forwarder. -/
structure Nfd where
  faces : List Face
  routes : List Route
  /-- The id of the next face. -/
  next : ℕ
  nodup : (faces.map Face.id).Nodup
  lt_next : ∀ f ∈ faces, f.id < next

/-- What differs from one NFD to another. -/
structure Nfdc where
  /-- The port of a face created without one. -/
  port : ℕ
  /-- Whether the routes through a face go when it is destroyed. -/
  cascade : Bool
  /-- What the line of a face says after its remote URI. -/
  details : Face → List Char
  /-- There is one remote URI in a line. -/
  details_remote : ∀ f, ¬ "remote=tcp4://".toList <:+: details f

/-- No face and no route yet. -/
def Nfd.empty (next : ℕ) : Nfd := ⟨[], [], next, List.nodup_nil, fun _ hf => by cases hf⟩

/-! ### Commands -/

/-- `nfdc route remove <name> <face>` -/
def Nfd.routeRemove (name : Prefix) (face : ℕ) (s : Nfd) : Nfd :=
  { s with routes := s.routes.filter fun r => r ≠ ⟨name, face⟩ }

/-- `nfdc face destroy <face>` -/
def Nfd.faceDestroy (nfdc : Nfdc) (face : ℕ) (s : Nfd) : Nfd where
  faces := s.faces.filter fun f => f.id ≠ face
  routes := if nfdc.cascade then s.routes.filter fun r => r.face ≠ face else s.routes
  next := s.next
  nodup := s.nodup.sublist (List.filter_sublist.map _)
  lt_next f hf := s.lt_next f (List.mem_filter.mp hf).1

theorem Nfd.nodup_create (s : Nfd) (remote : Remote) :
    ((s.faces ++ [(⟨s.next, remote⟩ : Face)]).map Face.id).Nodup := by
  rw [List.map_append]
  refine s.nodup.append (List.nodup_singleton _) fun i hi hnext => ?_
  obtain ⟨f, hf, rfl⟩ := List.mem_map.mp hi
  have hlt := s.lt_next f hf
  rw [List.mem_singleton.mp hnext] at hlt
  exact absurd hlt (Nat.lt_irrefl _)

theorem Nfd.lt_next_create (s : Nfd) (remote : Remote) :
    ∀ f ∈ s.faces ++ [(⟨s.next, remote⟩ : Face)], f.id < s.next + 1 := by
  intro f hf
  rcases List.mem_append.mp hf with hf | hf
  · exact Nat.lt_succ_of_lt (s.lt_next f hf)
  · rw [List.mem_singleton.mp hf]
    exact Nat.lt_succ_self _

/-- `nfdc face create <remote>`: a face is made if none has that remote. -/
def Nfd.faceCreate (remote : Remote) (s : Nfd) : Nfd :=
  if s.faces.any fun f => f.remote = remote then s
  else ⟨s.faces ++ [⟨s.next, remote⟩], s.routes, s.next + 1, s.nodup_create remote,
    s.lt_next_create remote⟩

/-- `nfdc route add prefix <name> nexthop <remote>`: through the face of that
remote, which is made if there is none. -/
def Nfd.routeAdd (name : Prefix) (remote : Remote) (s : Nfd) : Nfd :=
  let s := s.faceCreate remote
  match s.faces.find? fun f => f.remote = remote with
  | some f => { s with routes := s.routes.insert ⟨name, f.id⟩ }
  | none => s

/-! ### A face and the route through it -/

variable {s : Nfd} {remote : Remote}

theorem Nfd.faceCreate_of_new (h : ∀ f ∈ s.faces, f.remote ≠ remote) :
    s.faceCreate remote = ⟨s.faces ++ [⟨s.next, remote⟩], s.routes, s.next + 1,
      s.nodup_create remote, s.lt_next_create remote⟩ := by
  unfold faceCreate
  rw [if_neg]
  simpa using h

/-- A face that is there is not made again. -/
theorem Nfd.faceCreate_of_mem {f : Face} (hf : f ∈ s.faces) (hr : f.remote = remote) :
    s.faceCreate remote = s := by
  unfold faceCreate
  rw [if_pos]
  exact List.any_eq_true.mpr ⟨f, hf, decide_eq_true hr⟩

/-- **A route to a remote that had no face goes through the next one.** -/
theorem Nfd.routeAdd_faceCreate (h : ∀ f ∈ s.faces, f.remote ≠ remote) (name : Prefix) :
    let s' := (s.faceCreate remote).routeAdd name remote
    s'.faces = s.faces ++ [⟨s.next, remote⟩] ∧ s'.routes = s.routes.insert ⟨name, s.next⟩ ∧
      s'.next = s.next + 1 := by
  have hnew : (⟨s.next, remote⟩ : Face) ∈ (s.faceCreate remote).faces := by
    rw [faceCreate_of_new h]
    simp
  have hfind : (s.faceCreate remote).faces.find? (fun f => f.remote = remote) =
      some ⟨s.next, remote⟩ := by
    rw [faceCreate_of_new h]
    show (s.faces ++ [_]).find? _ = _
    rw [List.find?_append, List.find?_eq_none.mpr fun f hf => by simpa using h f hf]
    simp
  unfold routeAdd
  rw [faceCreate_of_mem hnew rfl]
  dsimp only
  rw [hfind, faceCreate_of_new h]
  exact ⟨rfl, rfl, rfl⟩

end Dhcp
end IcnDemo
