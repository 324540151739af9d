import Mathlib.Data.List.AList
import Mathlib.Data.List.Induction
import Mathlib.Logic.Function.Basic
import Mathlib.Tactic.Common

/-!
# Key/value tables, atomic write batches and hash-map iteration

Three general pieces a persistent store is made of:

* a **table** is a partial function from keys to values, changed only by atomic
  batches of puts and deletes executed in order (`write`);
* an in-memory **map** is Mathlib's `AList`; seeding one by repeated insertion
  (`insertAll`) keeps, for each key, the last value inserted;
* a hash map is iterated in an unspecified order, so a program that iterates
  one is parametrised by an `IterOrder`: any enumeration of the entries.

The lemmas say what a batch does to one key, which is all the proofs about a
store ever need.
-/

namespace KeyValue

variable {α β γ : Type*} [DecidableEq α]

/-! ## Tables and batches -/

/-- One operation of a write batch. -/
inductive Op (α β : Type*) where
  | put (key : α) (value : β)
  | delete (key : α)

/-- The key an operation touches. -/
def Op.key : Op α β → α
  | .put key _ => key
  | .delete key => key

/-- What the touched key holds afterwards. -/
def Op.outcome : Op α β → Option β
  | .put _ value => some value
  | .delete _ => none

/-- Execute a batch on a table, first operation first. -/
def write (table : α → Option β) (ops : List (Op α β)) : α → Option β :=
  ops.foldl (fun t op => Function.update t op.key op.outcome) table

@[simp] theorem write_nil (table : α → Option β) : write table [] = table := rfl

@[simp] theorem write_cons (table : α → Option β) (op : Op α β) (ops : List (Op α β)) :
    write table (op :: ops) =
      write (Function.update table op.key op.outcome) ops := rfl

theorem write_append (table : α → Option β) (ops ops' : List (Op α β)) :
    write table (ops ++ ops') = write (write table ops) ops' := by
  simp [write, List.foldl_append]

/-- A key no operation touches keeps its value. -/
theorem write_of_notMem {table : α → Option β} {ops : List (Op α β)} {k : α}
    (h : k ∉ ops.map Op.key) : write table ops k = table k := by
  induction ops generalizing table with
  | nil => rfl
  | cons op ops ih =>
      simp only [List.map_cons, List.mem_cons, not_or] at h
      rw [write_cons, ih h.2, Function.update_of_ne h.1]

/-- A batch of deletes clears exactly its keys. -/
theorem write_deletes (table : α → Option β) (ks : List α) (k : α) :
    write table (ks.map Op.delete) k = if k ∈ ks then none else table k := by
  induction ks generalizing table with
  | nil => simp
  | cons a ks ih =>
      rw [List.map_cons, write_cons, ih]
      by_cases hks : k ∈ ks
      · simp [hks]
      · by_cases hk : k = a
        · subst hk
          simp [hks, Op.key, Op.outcome]
        · simp [hks, hk, Op.key]

/-- A batch of puts under a function of the key: the value does not depend on
how often or in which order a key is put. -/
theorem write_puts_of_fun (table : α → Option β) (f : α → β) (ks : List α) (k : α) :
    write table (ks.map fun a => Op.put a (f a)) k =
      if k ∈ ks then some (f k) else table k := by
  induction ks generalizing table with
  | nil => simp
  | cons a ks ih =>
      rw [List.map_cons, write_cons, ih]
      by_cases hks : k ∈ ks
      · simp [hks]
      · by_cases hk : k = a
        · subst hk
          simp [hks, Op.key, Op.outcome]
        · simp [hks, hk, Op.key]

/-! ## Iterating a map -/

/-- An iteration order of a hash map: any enumeration of its entries. -/
structure IterOrder (α β : Type*) where
  list : AList (fun _ : α => β) → List (Sigma fun _ : α => β)
  perm : ∀ m, (list m).Perm m.entries

/-- The order in which the association list happens to store its entries. -/
def IterOrder.stored (α β : Type*) : IterOrder α β where
  list := AList.entries
  perm := fun _ => List.Perm.refl _

/-- The stored order with the entry of `a` moved to the front. -/
def IterOrder.startingAt {α β : Type*} [DecidableEq α] (a : α) : IterOrder α β where
  list := fun m => m.entries.filter (fun e => e.1 = a) ++ m.entries.filter fun e => !(e.1 = a)
  perm := fun _ => List.filter_append_perm _ _

theorem IterOrder.list_startingAt {α β : Type*} [DecidableEq α] {a : α} {b : β}
    {m : AList fun _ : α => β} (h : m.lookup a = some b) :
    ∃ rest, (IterOrder.startingAt a).list m = ⟨a, b⟩ :: rest := by
  have hmem : ⟨a, b⟩ ∈ m.entries.filter fun e => e.1 = a :=
    List.mem_filter.mpr ⟨AList.mem_lookup_iff.mp h, by simp⟩
  cases hfilter : m.entries.filter fun e => e.1 = a with
  | nil =>
      rw [hfilter] at hmem
      cases hmem
  | cons e rest =>
      have he : e ∈ m.entries.filter fun e => e.1 = a := by
        rw [hfilter]
        exact List.mem_cons_self
      obtain ⟨hentry, hkey⟩ := List.mem_filter.mp he
      obtain ⟨k, v⟩ := e
      obtain rfl : k = a := by simpa using hkey
      -- A key has one entry.
      have hv : m.lookup k = some v := AList.mem_lookup_iff.mpr hentry
      obtain rfl := Option.some.inj (h.symm.trans hv)
      refine ⟨rest ++ m.entries.filter fun e => !(e.1 = k), ?_⟩
      show m.entries.filter (fun e => e.1 = k) ++ m.entries.filter (fun e => !(e.1 = k)) = _
      rw [hfilter, List.cons_append]

/-- The stored order with the entry of `a` moved to the end. -/
def IterOrder.endingAt {α β : Type*} [DecidableEq α] (a : α) : IterOrder α β where
  list := fun m => ((IterOrder.startingAt a).list m).reverse
  perm := fun m => (List.reverse_perm _).trans ((IterOrder.startingAt a).perm m)

theorem IterOrder.list_endingAt {α β : Type*} [DecidableEq α] {a : α} {b : β}
    {m : AList fun _ : α => β} (h : m.lookup a = some b) :
    ∃ front, (IterOrder.endingAt a).list m = front ++ [⟨a, b⟩] := by
  obtain ⟨rest, hrest⟩ := IterOrder.list_startingAt h
  refine ⟨rest.reverse, ?_⟩
  show ((IterOrder.startingAt a).list m).reverse = _
  rw [hrest, List.reverse_cons]

/-- Writing out a whole map, in whatever order it is iterated: a key of the map
gets the map's value, every other key keeps its own. -/
theorem write_puts_iterOrder (order : IterOrder α γ) (table : α → Option β)
    (f : γ → β) (m : AList fun _ : α => γ) (k : α) :
    write table ((order.list m).map fun e => Op.put e.1 (f e.2)) k =
      ((m.lookup k).map f).or (table k) := by
  have hnodup : ((order.list m).map Sigma.fst).Nodup :=
    ((order.perm m).map Sigma.fst).nodup_iff.mpr m.keys_nodup
  have hlookup : ∀ v, m.lookup k = some v ↔ ⟨k, v⟩ ∈ order.list m := by
    intro v
    rw [(order.perm m).mem_iff]
    exact AList.mem_lookup_iff
  generalize order.list m = l at hnodup hlookup
  cases hm : m.lookup k with
  | none =>
      rw [Option.map_none, Option.none_or]
      apply write_of_notMem
      intro hk
      simp only [List.map_map, List.mem_map, Function.comp_apply, Op.key] at hk
      obtain ⟨⟨a, v⟩, he, rfl⟩ := hk
      rw [(hlookup v).mpr he] at hm
      contradiction
  | some v =>
      -- Split the enumeration at the entry of `k`; no later entry has its key.
      obtain ⟨pre, post, rfl⟩ := List.append_of_mem ((hlookup v).mp hm)
      rw [List.map_append, List.map_cons, write_append, write_cons, write_of_notMem]
      · simp [Op.key, Op.outcome]
      · intro hk
        simp only [List.map_map, List.mem_map, Function.comp_apply, Op.key] at hk
        obtain ⟨e, he, hek⟩ := hk
        simp only [List.map_append, List.map_cons, List.nodup_append, List.nodup_cons] at hnodup
        exact hnodup.2.1.1 (List.mem_map.mpr ⟨e, he, hek⟩)

/-! ## Seeding a map -/

theorem mem_keys_of_lookup {m : AList fun _ : α => β} {k : α} {v : β}
    (h : m.lookup k = some v) : k ∈ m.keys := by
  rw [← AList.mem_keys, ← AList.lookup_isSome, h]
  rfl

/-- Insert a list of entries, first one first. -/
def insertAll (m : AList fun _ : α => β) (l : List (α × β)) : AList fun _ : α => β :=
  l.foldl (fun m e => m.insert e.1 e.2) m

@[simp] theorem insertAll_nil (m : AList fun _ : α => β) : insertAll m [] = m := rfl

@[simp] theorem insertAll_cons (m : AList fun _ : α => β) (e : α × β) (l : List (α × β)) :
    insertAll m (e :: l) = insertAll (m.insert e.1 e.2) l := rfl

/-- A key that is not inserted keeps its old value. -/
theorem lookup_insertAll_of_notMem {m : AList fun _ : α => β} {l : List (α × β)} {k : α}
    (h : k ∉ l.map Prod.fst) : (insertAll m l).lookup k = m.lookup k := by
  induction l generalizing m with
  | nil => rfl
  | cons e l ih =>
      simp only [List.map_cons, List.mem_cons, not_or] at h
      rw [insertAll_cons, ih h.2, AList.lookup_insert_ne h.1]

/-- An inserted key holds one of the values inserted for it. -/
theorem lookup_insertAll_of_mem {m : AList fun _ : α => β} {l : List (α × β)} {k : α}
    (h : k ∈ l.map Prod.fst) :
    ∃ v, (insertAll m l).lookup k = some v ∧ (k, v) ∈ l := by
  induction l generalizing m with
  | nil => simp at h
  | cons e l ih =>
      rw [insertAll_cons]
      by_cases hl : k ∈ l.map Prod.fst
      · obtain ⟨v, hv, hmem⟩ := ih (m := m.insert e.1 e.2) hl
        exact ⟨v, hv, List.mem_cons_of_mem _ hmem⟩
      · have hk : k = e.1 := by simpa [hl] using h
        subst hk
        refine ⟨e.2, ?_, List.mem_cons_self⟩
        rw [lookup_insertAll_of_notMem hl, AList.lookup_insert]

/-- With distinct keys every inserted entry is found again. -/
theorem lookup_insertAll_of_nodup {m : AList fun _ : α => β} {l : List (α × β)} {k : α} {v : β}
    (hnodup : (l.map Prod.fst).Nodup) (h : (k, v) ∈ l) :
    (insertAll m l).lookup k = some v := by
  obtain ⟨v', hv', hmem⟩ :=
    lookup_insertAll_of_mem (m := m) (List.mem_map_of_mem (f := Prod.fst) h)
  have hvv : (k, v') = (k, v) := List.inj_on_of_nodup_map hnodup hmem h rfl
  obtain ⟨-, rfl⟩ := Prod.mk.inj hvv
  exact hv'

theorem insertAll_append (m : AList fun _ : α => β) (l l' : List (α × β)) :
    insertAll m (l ++ l') = insertAll (insertAll m l) l' := by
  simp [insertAll, List.foldl_append]

/-- Seeding on top of a map: the seeded entries win. -/
theorem lookup_insertAll (m : AList fun _ : α => β) (l : List (α × β)) (k : α) :
    (insertAll m l).lookup k = ((insertAll ∅ l).lookup k).or (m.lookup k) := by
  by_cases h : k ∈ l.map Prod.fst
  · induction l using List.reverseRecOn with
    | nil => simp at h
    | append_singleton l e ih =>
        rw [insertAll_append, insertAll_append, insertAll_cons, insertAll_cons, insertAll_nil,
          insertAll_nil]
        by_cases hk : k = e.1
        · subst hk
          rw [AList.lookup_insert, AList.lookup_insert, Option.some_or]
        · rw [AList.lookup_insert_ne hk, AList.lookup_insert_ne hk]
          exact ih (by simpa [hk] using h)
  · rw [lookup_insertAll_of_notMem h, lookup_insertAll_of_notMem h, AList.lookup_empty,
      Option.none_or]

/-- Writing a list of entries is seeding a map with them and writing that out. -/
theorem write_puts (table : α → Option β) (l : List (α × β)) (k : α) :
    write table (l.map fun e => Op.put e.1 e.2) k =
      ((insertAll ∅ l).lookup k).or (table k) := by
  induction l generalizing table with
  | nil => simp
  | cons e l ih =>
      rw [List.map_cons, write_cons, ih, insertAll_cons, lookup_insertAll (AList.insert _ _ _)]
      by_cases hk : k = e.1
      · subst hk
        rw [AList.lookup_insert, Option.or_assoc, Option.some_or]
        simp [Op.key, Op.outcome]
      · rw [AList.lookup_insert_ne hk, AList.lookup_empty, Option.or_none]
        simp [Op.key, hk]

end KeyValue
