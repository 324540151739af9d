import Mathlib.Data.List.Nodup
import Mathlib.Data.List.Perm.Subperm
import Mathlib.Logic.Relation
import Mathlib.Tactic.Common

/-!
# Forests given by parent links

A forest over a type of nodes is given by a function `parent`: `none` for a node
that is not there, `some none` for a root and `some (some p)` for a child of
`p`.  The parent `p` itself may be absent, and links may run in circles; a node
belongs to a tree only when its links lead to a root.

* `Branch parent h nodes`: the links of `h` lead to a root, and `nodes` lists the
  nodes from that root to `h`.  A node has at most one branch, without repetitions.
* `Trail parent h cur path`: following links from `h` leads to `cur`; `path`
  lists the nodes left behind, latest first.  Without circles a trail never
  meets a node twice, so it is no longer than the number of nodes.
-/

namespace ParentForest

variable {ν : Type*}

/-- One step up. -/
def Link (parent : ν → Option (Option ν)) (a b : ν) : Prop := parent a = some (some b)

/-- No node is its own ancestor. -/
def Acyclic (parent : ν → Option (Option ν)) : Prop :=
  ∀ a, ¬Relation.TransGen (Link parent) a a

/-! ## Branches -/

/-- The nodes from the root of `h` to `h`. -/
inductive Branch (parent : ν → Option (Option ν)) : ν → List ν → Prop
  | root {h : ν} (hroot : parent h = some none) : Branch parent h [h]
  | child {h p : ν} {nodes : List ν} (hlink : parent h = some (some p))
      (hparent : Branch parent p nodes) : Branch parent h (nodes ++ [h])

namespace Branch

variable {parent : ν → Option (Option ν)} {h a b : ν} {nodes nodes' : List ν}

theorem unique (hc : Branch parent h nodes) (hc' : Branch parent h nodes') : nodes = nodes' := by
  induction hc generalizing nodes' with
  | root hroot =>
      cases hc' with
      | root _ => rfl
      | child hlink _ =>
          rw [hroot] at hlink
          cases hlink
  | @child h p nodes hlink _ ih =>
      cases hc' with
      | root hroot =>
          rw [hlink] at hroot
          cases hroot
      | child hlink' hparent' =>
          rw [hlink] at hlink'
          obtain rfl := Option.some.inj (Option.some.inj hlink')
          rw [ih hparent']

theorem length_pos (hc : Branch parent h nodes) : 0 < nodes.length := by
  cases hc <;> simp

/-- A branch ends in its own node. -/
theorem getElem?_last (hc : Branch parent h nodes) : nodes[nodes.length - 1]? = some h := by
  cases hc with
  | root _ => rfl
  | child _ _ => simp

/-- Every prefix of a branch is the branch of its last node. -/
theorem take (hc : Branch parent h nodes) {i : Nat} (hi : nodes[i]? = some a) :
    Branch parent a (nodes.take (i + 1)) := by
  induction hc generalizing i with
  | root hroot =>
      cases i with
      | zero =>
          obtain rfl := Option.some.inj hi
          exact .root hroot
      | succ i => simp at hi
  | @child h p nodes hlink hparent ih =>
      by_cases hlt : i < nodes.length
      · rw [List.getElem?_append_left hlt] at hi
        rw [List.take_append_of_le_length (by omega)]
        exact ih hi
      · have hlen : i < nodes.length + 1 := by
          simpa using (List.getElem?_eq_some_iff.mp hi).1
        obtain rfl : i = nodes.length := by omega
        have hah : a = h := by simpa using hi.symm
        subst hah
        rw [List.take_of_length_le (by simp)]
        exact .child hlink hparent

/-- A branch starts in a root. -/
theorem first (hc : Branch parent h nodes) (hi : nodes[0]? = some a) : parent a = some none := by
  have ha := hc.take hi
  have hlen : (nodes.take (0 + 1)).length ≤ 1 := List.length_take_le ..
  generalize nodes.take (0 + 1) = nodes' at ha hlen
  cases ha with
  | root hroot => exact hroot
  | child _ hparent =>
      have := hparent.length_pos
      simp only [List.length_append, List.length_singleton] at hlen
      omega

/-- Neighbours on a branch are linked. -/
theorem link (hc : Branch parent h nodes) {i : Nat} (hi : nodes[i + 1]? = some b) :
    ∃ a, nodes[i]? = some a ∧ parent b = some (some a) := by
  induction hc generalizing i with
  | root _ => simp at hi
  | @child h p nodes hlink hparent ih =>
      by_cases hlt : i + 1 < nodes.length
      · rw [List.getElem?_append_left hlt] at hi
        obtain ⟨a, ha, hab⟩ := ih hi
        refine ⟨a, ?_, hab⟩
        rw [List.getElem?_append_left (by omega)]
        exact ha
      · have hlen : i + 1 < nodes.length + 1 := by
          simpa using (List.getElem?_eq_some_iff.mp hi).1
        have hlast : i + 1 = nodes.length := by omega
        have hbh : b = h := by
          rw [hlast] at hi
          simpa using hi.symm
        subst hbh
        refine ⟨p, ?_, hlink⟩
        rw [List.getElem?_append_left (by omega)]
        have hp := hparent.getElem?_last
        rw [← hlast] at hp
        exact hp

theorem present_of_mem (hc : Branch parent h nodes) (ha : a ∈ nodes) : parent a ≠ none := by
  induction hc with
  | root hroot =>
      obtain rfl := List.mem_singleton.mp ha
      simp [hroot]
  | child hlink _ ih =>
      rcases List.mem_append.mp ha with hold | hnew
      · exact ih hold
      · obtain rfl := List.mem_singleton.mp hnew
        simp [hlink]

/-- No node stands twice on a branch: its two prefixes would be one branch. -/
theorem nodup (hc : Branch parent h nodes) : nodes.Nodup := by
  rw [List.nodup_iff_getElem?_ne_getElem?]
  intro i j hij hj heq
  have hja : nodes[j]? = some nodes[j] := List.getElem?_eq_getElem hj
  have hi := hc.take (heq.trans hja)
  have hj' := hc.take hja
  have hlen := congrArg List.length (hi.unique hj')
  simp only [List.length_take] at hlen
  omega

end Branch

/-! ## Trails -/

/-- The way from `h` up to `cur`, with the nodes left behind. -/
inductive Trail (parent : ν → Option (Option ν)) (h : ν) : ν → List ν → Prop
  | start : Trail parent h h []
  | up {a b : ν} {path : List ν} (before : Trail parent h a path)
      (hlink : parent a = some (some b)) : Trail parent h b (a :: path)

namespace Trail

variable {parent : ν → Option (Option ν)} {h cur a : ν} {path nodes : List ν}

/-- A branch of the start leads through every node the trail reaches. -/
theorem branch_cur (trail : Trail parent h cur path) (hc : Branch parent h nodes) :
    ∃ nodes', Branch parent cur nodes' := by
  induction trail with
  | start => exact ⟨nodes, hc⟩
  | up _ hlink ih =>
      obtain ⟨nodes', hc'⟩ := ih
      cases hc' with
      | root hroot =>
          rw [hlink] at hroot
          cases hroot
      | child hlink' hparent =>
          rw [hlink] at hlink'
          obtain rfl := Option.some.inj (Option.some.inj hlink')
          exact ⟨_, hparent⟩

theorem transGen (trail : Trail parent h cur path) (ha : a ∈ path) :
    Relation.TransGen (Link parent) a cur := by
  induction trail with
  | start => cases ha
  | up _ hlink ih =>
      rcases List.mem_cons.mp ha with rfl | hold
      · exact .single hlink
      · exact (ih hold).tail hlink

theorem notMem (trail : Trail parent h cur path) (hacyclic : Acyclic parent) : cur ∉ path :=
  fun hmem => hacyclic cur (trail.transGen hmem)

theorem nodup (trail : Trail parent h cur path) (hacyclic : Acyclic parent) : path.Nodup := by
  induction trail with
  | start => exact List.nodup_nil
  | up before _ ih => exact List.nodup_cons.mpr ⟨before.notMem hacyclic, ih⟩

theorem present_of_mem (trail : Trail parent h cur path) (ha : a ∈ path) : parent a ≠ none := by
  induction trail with
  | start => cases ha
  | up _ hlink ih =>
      rcases List.mem_cons.mp ha with rfl | hold
      · simp [hlink]
      · exact ih hold

/-- A trail leaves behind at most all the nodes there are. -/
theorem length_le (trail : Trail parent h cur path) (hacyclic : Acyclic parent)
    (hnodes : ∀ a, parent a ≠ none → a ∈ nodes) : path.length ≤ nodes.length := by
  have hsub : path ⊆ nodes := fun a ha => hnodes a (trail.present_of_mem ha)
  exact (List.subperm_of_subset (trail.nodup hacyclic) hsub).length_le

end Trail

end ParentForest
