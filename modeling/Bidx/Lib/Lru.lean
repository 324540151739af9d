import Mathlib.Data.List.Nodup

/-!
# Least-recently-used lists

A list of keys, the most recently used at the end.  Touching a key moves it to the
end; what is then above the capacity is dropped from the front.
-/

namespace Lru

variable {ι : Type*} [DecidableEq ι]

/-- `a` at the end. -/
def promote (a : ι) (lru : List ι) : List ι := lru.erase a ++ [a]

/-- The keys dropped from the front when `a` is touched. -/
def evicted (cap : Nat) (a : ι) (lru : List ι) : List ι :=
  (promote a lru).take ((promote a lru).length - cap)

/-- The list after `a` is touched. -/
def touch (cap : Nat) (a : ι) (lru : List ι) : List ι :=
  (promote a lru).drop ((promote a lru).length - cap)

section Touch

variable {cap : Nat} {a b : ι} {lru : List ι}

theorem mem_promote : b ∈ promote a lru ↔ b ∈ lru ∨ b = a := by
  rw [promote, List.mem_append, List.mem_singleton]
  by_cases h : b = a
  · simp [h]
  · rw [List.mem_erase_of_ne h]

theorem nodup_promote (h : lru.Nodup) : (promote a lru).Nodup := by
  rw [promote, List.nodup_append]
  refine ⟨h.erase a, List.nodup_singleton a, ?_⟩
  intro b hb c hc heq
  rw [heq, List.mem_singleton.mp hc] at hb
  exact h.not_mem_erase hb

theorem nodup_touch (h : lru.Nodup) : (touch cap a lru).Nodup :=
  (nodup_promote h).sublist (List.drop_sublist _ _)

theorem length_touch_le : (touch cap a lru).length ≤ cap := by
  rw [touch, List.length_drop]
  omega

/-- The touched key stays. -/
theorem mem_touch_self (hcap : 0 < cap) : a ∈ touch cap a lru := by
  have hlen : (lru.erase a ++ [a]).length - cap ≤ (lru.erase a).length := by
    rw [List.length_append, List.length_singleton]
    omega
  rw [touch, promote, List.drop_append_of_le_length hlen]
  exact List.mem_append_right _ (List.mem_singleton_self a)

/-- Every other key stays or is dropped. -/
theorem mem_touch_or_evicted (h : b ∈ lru) : b ∈ touch cap a lru ∨ b ∈ evicted cap a lru := by
  have hmem : b ∈ promote a lru := mem_promote.mpr (.inl h)
  rw [← List.take_append_drop ((promote a lru).length - cap) (promote a lru)] at hmem
  exact (List.mem_append.mp hmem).symm

end Touch

end Lru
