import Mathlib.Data.List.Infix
import Mathlib.Logic.Function.Basic

/-!
# File trees with symbolic links

A tree says what stands at each place, a place being the list of names from the top; nothing stands below anything but a
directory.  A path is followed from a place through directories and symbolic links, which lead wherever they lead; along
`Real` directories it stays where it says.
-/

namespace FileTree

/-- What stands at a place. -/
inductive Node (β : Type*) where
  | file (content : β)
  | dir
  | link
  deriving DecidableEq, Repr

/-- What stands where. -/
structure PlaceTree (ν β : Type*) where
  node : List ν → Option (Node β)
  parent : ∀ p c, node (p ++ [c]) ≠ none → node p = some .dir

variable {ν β : Type*}

/-- All places are free but the top. -/
def PlaceTree.bare : PlaceTree ν β where
  node p := if p.isEmpty then some .dir else none
  parent p c h := by simp at h

/-- Where a path leads from a place; `follow` says where links lead. -/
def PlaceTree.resolve (follow : PlaceTree ν β → List ν → Option (List ν)) (t : PlaceTree ν β) :
    List ν → List ν → Option (List ν)
  | here, [] => some here
  | here, c :: cs =>
    match t.node (here ++ [c]) with
    | some .dir => resolve follow t (here ++ [c]) cs
    | some .link => (follow t (here ++ [c])).bind fun there => resolve follow t there cs
    | _ => none

/-- What stands under a name at the end of a path; a link there is not followed. -/
def PlaceTree.lookup (follow : PlaceTree ν β → List ν → Option (List ν)) (t : PlaceTree ν β) (root up : List ν)
    (c : ν) : Option (Node β) :=
  (t.resolve follow root up).bind fun p => t.node (p ++ [c])

/-- The path consists of directories. -/
def PlaceTree.Real (t : PlaceTree ν β) (root up : List ν) : Prop :=
  ∀ q, q ≠ [] → q <+: up → t.node (root ++ q) = some .dir

section Set

variable [DecidableEq ν] [DecidableEq β]

/-- Another node, or none, is put in a directory, in a place where there is no directory. -/
def PlaceTree.set (t : PlaceTree ν β) (p : List ν) (c : ν) (n : Option (Node β)) : PlaceTree ν β :=
  if h : t.node p = some .dir ∧ t.node (p ++ [c]) ≠ some .dir then
    { node := Function.update t.node (p ++ [c]) n
      parent := by
        intro q d hne
        have hpc : p ≠ p ++ [c] := fun heq => by simpa using congrArg List.length heq
        by_cases hplace : q ++ [d] = p ++ [c]
        · obtain ⟨rfl, -⟩ := List.append_inj' hplace rfl
          rw [Function.update_of_ne hpc]
          exact h.1
        · rw [Function.update_of_ne hplace] at hne
          have hdir := t.parent q d hne
          have hq : q ≠ p ++ [c] := by
            rintro rfl
            exact h.2 hdir
          rw [Function.update_of_ne hq]
          exact hdir }
  else t

variable {t : PlaceTree ν β} {p : List ν} {c : ν}

theorem PlaceTree.set_node (hdir : t.node p = some .dir) (hleaf : t.node (p ++ [c]) ≠ some .dir) (n : Option (Node β)) :
    (t.set p c n).node = Function.update t.node (p ++ [c]) n := by
  unfold PlaceTree.set
  rw [dif_pos ⟨hdir, hleaf⟩]

end Set

variable {t t' : PlaceTree ν β} {root up p q : List ν} {c : ν}

/-- Above what stands somewhere there are directories. -/
theorem PlaceTree.dir_of_above (h : t.node (p ++ q) ≠ none) (hq : q ≠ []) : t.node p = some .dir := by
  induction q using List.reverseRecOn with
  | nil => exact absurd rfl hq
  | append_singleton q c ih =>
    rw [← List.append_assoc] at h
    have hdir := t.parent _ c h
    by_cases hnil : q = []
    · rwa [hnil, List.append_nil] at hdir
    · exact ih (by rw [hdir]; exact Option.some_ne_none _) hnil

theorem PlaceTree.real_nil (t : PlaceTree ν β) (root : List ν) : t.Real root [] :=
  fun _ hne hq => absurd (List.prefix_nil.1 hq) hne

theorem PlaceTree.Real.concat (h : t.Real root up) (hc : t.node (root ++ (up ++ [c])) = some .dir) :
    t.Real root (up ++ [c]) := by
  intro q hne hq
  rcases List.prefix_concat_iff.1 hq with rfl | hq
  · exact hc
  · exact h q hne hq

/-- The way to what stands somewhere is real. -/
theorem PlaceTree.real_of_node (h : t.node (root ++ (up ++ [c])) ≠ none) : t.Real root up := by
  rintro q - ⟨rest, rfl⟩
  refine PlaceTree.dir_of_above (q := rest ++ [c]) ?_ (by simp)
  simpa using h

/-- A real path leads where it says. -/
theorem PlaceTree.Real.resolve (h : t.Real root up) (follow : PlaceTree ν β → List ν → Option (List ν)) :
    t.resolve follow root up = some (root ++ up) := by
  induction up generalizing root with
  | nil => simp [PlaceTree.resolve]
  | cons c cs ih =>
    have hc : t.node (root ++ [c]) = some .dir := h [c] (by simp) (by simp)
    have hrest : t.Real (root ++ [c]) cs := by
      intro q _ hq
      rw [List.append_assoc]
      exact h ([c] ++ q) (by simp) (by simpa using hq)
    unfold PlaceTree.resolve
    rw [hc]
    dsimp only
    rw [ih hrest, List.append_assoc]
    rfl

theorem PlaceTree.Real.lookup (h : t.Real root up) (follow : PlaceTree ν β → List ν → Option (List ν)) (c : ν) :
    t.lookup follow root up c = t.node (root ++ up ++ [c]) := by
  unfold PlaceTree.lookup
  rw [h.resolve follow, Option.bind_some]

/-- Whatever is kept stays real. -/
theorem PlaceTree.Real.mono (h : t.Real root up) (hkept : ∀ p, t.node p ≠ none → t'.node p = t.node p) :
    t'.Real root up := by
  intro q hne hq
  have hdir := h q hne hq
  rw [hkept _ (by rw [hdir]; exact Option.some_ne_none _), hdir]

end FileTree
