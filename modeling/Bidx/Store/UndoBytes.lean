import Bidx.Lib.PrefixCode
import Bidx.Store.Utxo

/-!
# Undo records as bytes

`BlockUndo::decode` reads two counted sections one after the other.  It is a parser
that looks at nothing behind the record (`BlockUndo.read`), so bytes that follow a
record do not matter and a record cut short anywhere is refused.

Each count is handed to `Vec::with_capacity` before the entries it counts are looked
at.  `BlockUndo.capacities` are these requests; a request above what a vector can hold
aborts.
-/

namespace Bidx

open LittleEndian PrefixCode

/-! ## The record as a parser -/

/-- The rest of a CompactSize after its first byte. -/
def varintTail (first : UInt8) : Parser UInt8 Nat :=
  if first ≤ 0xfc then
    Parser.value first.toNat
  else if first = 0xfd then
    takeWord 2
  else if first = 0xfe then
    takeWord 4
  else
    takeWord 8

theorem takeWord_eq (w : Nat) : takeWord w = Parser.chunk w fun b => some (ofBytes b) := rfl

theorem readVarint_eq : readVarint = (Parser.chunk 1 List.head?).andThen varintTail := by
  funext b
  cases b with
  | nil => rfl
  | cons first b =>
      have hfirst : Parser.chunk 1 List.head? (first :: b) = some (first, b) := rfl
      rw [Parser.andThen_of_some hfirst, readVarint, varintTail]
      split_ifs <;> rfl

theorem local_takeWord (w : Nat) : Parser.Local (takeWord w) := by
  rw [takeWord_eq]
  exact Parser.local_chunk w _

theorem local_readVarint : Parser.Local readVarint := by
  rw [readVarint_eq]
  refine (Parser.local_chunk 1 _).andThen fun first => ?_
  unfold varintTail
  split_ifs
  · exact Parser.local_value _
  · exact local_takeWord 2
  · exact local_takeWord 4
  · exact local_takeWord 8

/-- An array within the bytes that were taken. -/
theorem arrayAt_take {n width : Nat} (h : n ≤ width) (b : List UInt8) :
    arrayAt n (b.take width) 0 = arrayAt n b 0 := by
  apply List.Vector.eq
  simp only [arrayAt, List.drop_zero, List.take_take, Nat.min_eq_left h]

namespace BlockUndo

/-- One entry of the first section. -/
def spentEntry : Parser UInt8 (Key × UtxoValue) :=
  Parser.chunk 81 fun b => (UtxoValue.decode (b.drop 36)).map fun val => (arrayAt 36 b 0, val)

/-- One entry of the second section. -/
def createdEntry : Parser UInt8 Key := Parser.chunk 36 fun b => some (arrayAt 36 b 0)

/-- The record off the front of some bytes. -/
def read : Parser UInt8 BlockUndo :=
  Parser.andThen readVarint fun nSpent =>
    (spentEntry.times nSpent).andThen fun spent =>
      Parser.andThen readVarint fun nCreated =>
        (createdEntry.times nCreated).andThen fun created => Parser.value ⟨spent, created⟩

theorem local_read : read.Local := by
  refine local_readVarint.andThen fun nSpent => ?_
  refine Parser.Local.andThen ((Parser.local_chunk 81 _).times nSpent) fun spent => ?_
  refine local_readVarint.andThen fun nCreated => ?_
  exact Parser.Local.andThen ((Parser.local_chunk 36 _).times nCreated) fun created =>
    Parser.local_value _

theorem decodeSpent_eq (rounds : Nat) : decodeSpent rounds = spentEntry.times rounds := by
  induction rounds with
  | zero => rfl
  | succ rounds ih =>
      funext b
      rw [decodeSpent, Parser.times]
      rcases Nat.lt_or_ge b.length 81 with hlt | hle
      · have hentry : spentEntry b = none := Parser.chunk_of_lt hlt
        rw [if_pos hlt, Parser.andThen_of_none hentry]
      · have hentry : spentEntry b = ((UtxoValue.decode ((b.drop 36).take 45)).map
            fun val => (arrayAt 36 b 0, val)).map fun a => (a, b.drop 81) := by
          rw [spentEntry, Parser.chunk_of_le hle, List.drop_take, arrayAt_take (by decide)]
        rw [if_neg (Nat.not_lt.mpr hle), ih]
        cases hval : UtxoValue.decode ((b.drop 36).take 45) with
        | none =>
            rw [hval] at hentry
            rw [Parser.andThen_of_none hentry]
        | some val =>
            rw [hval] at hentry
            rw [Parser.andThen_of_some hentry]
            cases hrest : spentEntry.times rounds (b.drop 81) with
            | none => rw [Parser.andThen_of_none hrest]
            | some section₁ => rw [Parser.andThen_of_some hrest, Parser.value]

theorem decodeCreated_eq (rounds : Nat) (b : List UInt8) :
    decodeCreated rounds b = (createdEntry.times rounds b).map Prod.fst := by
  induction rounds generalizing b with
  | zero => rfl
  | succ rounds ih =>
      rw [decodeCreated, Parser.times]
      rcases Nat.lt_or_ge b.length 36 with hlt | hle
      · have hentry : createdEntry b = none := Parser.chunk_of_lt hlt
        rw [if_pos hlt, Parser.andThen_of_none hentry, Option.map_none]
      · have hentry : createdEntry b = some (arrayAt 36 b 0, b.drop 36) := by
          rw [createdEntry, Parser.chunk_of_le hle, arrayAt_take (by decide), Option.map_some]
        rw [if_neg (Nat.not_lt.mpr hle), ih, Parser.andThen_of_some hentry]
        cases hrest : createdEntry.times rounds (b.drop 36) with
        | none =>
            rw [Parser.andThen_of_none hrest]
            rfl
        | some section₂ =>
            rw [Parser.andThen_of_some hrest]
            rfl

/-- Decoding is reading a record and forgetting the rest. -/
theorem decode_eq (b : List UInt8) : decode b = (read b).map Prod.fst := by
  rw [decode, read]
  cases hcount : readVarint b with
  | none => rw [Parser.andThen_of_none hcount, Option.map_none]
  | some counted =>
      rw [Parser.andThen_of_some hcount]
      dsimp only
      rw [decodeSpent_eq]
      cases hspent : spentEntry.times counted.1 counted.2 with
      | none => rw [Parser.andThen_of_none hspent, Option.map_none]
      | some section₁ =>
          rw [Parser.andThen_of_some hspent]
          dsimp only
          cases hcount' : readVarint section₁.2 with
          | none => rw [Parser.andThen_of_none hcount', Option.map_none]
          | some counted' =>
              rw [Parser.andThen_of_some hcount']
              dsimp only
              rw [decodeCreated_eq]
              cases hcreated : createdEntry.times counted'.1 counted'.2 with
              | none =>
                  rw [Parser.andThen_of_none hcreated]
                  rfl
              | some section₂ =>
                  rw [Parser.andThen_of_some hcreated]
                  rfl

/-! ## Whole records and cut ones -/

theorem createdEntry_encode (key : Key) (t : List UInt8) :
    createdEntry (key.toList ++ t) = some (key, t) := by
  have hkey : key.toList.length = 36 := key.toList_length
  have hle : 36 ≤ (key.toList ++ t).length := by
    rw [List.length_append]
    omega
  rw [createdEntry, Parser.chunk_of_le hle, arrayAt_take (by decide),
    arrayAt_of_drop key (List.drop_zero ..), List.drop_left' hkey, Option.map_some]

theorem read_encode (u : BlockUndo) (hs : u.spent.length < 2 ^ 64)
    (hc : u.created.length < 2 ^ 64) (t : List UInt8) : read (u.encode ++ t) = some (u, t) := by
  rw [encode, List.append_assoc, List.append_assoc, List.append_assoc, read,
    Parser.andThen_of_some (readVarint_putVarint hs _), ← decodeSpent_eq,
    Parser.andThen_of_some (decodeSpent_encode u.spent _),
    Parser.andThen_of_some (readVarint_putVarint hc _),
    Parser.andThen_of_some (Parser.times_encode createdEntry_encode u.created t)]
  rfl

/-- A record decodes to itself whatever follows it, and a record cut short, at any
byte, does not decode. -/
theorem decode_encode_append_and_cut (u : BlockUndo) (hs : u.spent.length < 2 ^ 64)
    (hc : u.created.length < 2 ^ 64) :
    (∀ t, decode (u.encode ++ t) = some u) ∧
      ∀ b, b <+: u.encode → b ≠ u.encode → decode b = none := by
  constructor
  · intro t
    rw [decode_eq, read_encode u hs hc t, Option.map_some]
  · intro b hb hne
    rw [decode_eq, local_read.strict_prefix (read_encode u hs hc) hb hne, Option.map_none]

/-- A record of one spent output and one created outpoint, cut before its last byte. -/
theorem decode_encode_append_and_cut_sample :
    let u : BlockUndo := ⟨[(makeKey (wordBytes 32 1) 0, ⟨5, 0, 3, zeroBytes 32⟩)],
      [makeKey (wordBytes 32 2) 0]⟩
    decode (u.encode ++ [7]) = some u ∧ decode u.encode.dropLast = none := by
  intro u
  obtain ⟨hwhole, hcut⟩ := decode_encode_append_and_cut u (by decide) (by decide)
  have hne : u.encode ≠ [] := by decide +kernel
  refine ⟨hwhole [7], hcut _ (List.dropLast_prefix _) fun heq => ?_⟩
  have hlen := congrArg List.length heq
  rw [List.length_dropLast] at hlen
  have := List.length_pos_iff.mpr hne
  omega

/-! ## The capacities asked for -/

/-- The arguments of the `Vec::with_capacity` calls of `decode`, in order. -/
def capacities (b : List UInt8) : List Nat :=
  match readVarint b with
  | none => []
  | some (nSpent, b) =>
      nSpent :: match decodeSpent nSpent b with
        | none => []
        | some (_, b) =>
            match readVarint b with
            | none => []
            | some (nCreated, _) => [nCreated]

/-- The count in front, and the count behind the entries it counts, are at most the
length of the bytes. -/
def CountsFit (b : List UInt8) : Prop :=
  ∀ nSpent rest, readVarint b = some (nSpent, rest) → nSpent ≤ b.length ∧
    ∀ nCreated tail, readVarint (rest.drop (81 * nSpent)) = some (nCreated, tail) →
      nCreated ≤ b.length

theorem exists_decode {b : List UInt8} (h : b.length = UtxoValue.encodedLen) :
    ∃ val, UtxoValue.decode b = some val := by
  rw [UtxoValue.decode, if_neg (not_not.mpr h)]
  exact ⟨_, rfl⟩

/-- The first section of a record is there or it is not: its entries are of one size and
none is refused. -/
theorem decodeSpent_cases (rounds : Nat) (b : List UInt8) :
    (b.length < 81 * rounds ∧ decodeSpent rounds b = none) ∨
      (81 * rounds ≤ b.length ∧ ∃ spent, decodeSpent rounds b = some (spent, b.drop (81 * rounds))) := by
  induction rounds generalizing b with
  | zero => exact .inr ⟨Nat.zero_le _, [], rfl⟩
  | succ rounds ih =>
      rw [decodeSpent]
      by_cases hlen : b.length < 81
      · rw [if_pos hlen]
        exact .inl ⟨by omega, rfl⟩
      · have hlen45 : ((b.drop 36).take 45).length = UtxoValue.encodedLen := by
          rw [List.length_take, List.length_drop]
          exact Nat.min_eq_left (by omega)
        obtain ⟨val, hval⟩ := exists_decode hlen45
        rw [if_neg hlen]
        simp only [hval]
        rcases ih (b.drop 81) with ⟨hlt, hnone⟩ | ⟨hle, spent, hspent⟩
        · rw [List.length_drop] at hlt
          simp only [hnone]
          exact .inl ⟨by omega, trivial⟩
        · rw [List.length_drop] at hle
          rw [List.drop_drop] at hspent
          simp only [hspent]
          refine .inr ⟨by omega, (arrayAt 36 b 0, val) :: spent, ?_⟩
          rw [show 81 + 81 * rounds = 81 * (rounds + 1) by omega]

theorem countsFit_iff {b rest : List UInt8} {nSpent : Nat}
    (hcount : readVarint b = some (nSpent, rest)) :
    CountsFit b ↔ nSpent ≤ b.length ∧
      ∀ nCreated tail, readVarint (rest.drop (81 * nSpent)) = some (nCreated, tail) →
        nCreated ≤ b.length := by
  constructor
  · exact fun h => h nSpent rest hcount
  · intro h nSpent' rest' hcount'
    obtain ⟨rfl, rfl⟩ := Prod.mk.inj (Option.some.inj (hcount.symm.trans hcount'))
    exact h

theorem capacities_fit_iff (b : List UInt8) :
    (∀ n ∈ capacities b, n ≤ b.length) ↔ CountsFit b := by
  unfold capacities
  cases hcount : readVarint b with
  | none => simp [CountsFit, hcount]
  | some counted =>
      obtain ⟨nSpent, rest⟩ := counted
      rw [countsFit_iff hcount]
      simp only [List.mem_cons, forall_eq_or_imp]
      refine and_congr_right fun _ => ?_
      rcases decodeSpent_cases nSpent rest with ⟨hlt, hnone⟩ | ⟨-, spent, hspent⟩
      · -- The entries do not fit, so nothing is left for the second count.
        have hempty : rest.drop (81 * nSpent) = [] := List.drop_eq_nil_of_le hlt.le
        simp [hnone, hempty, readVarint]
      · rw [hspent]
        dsimp only
        cases readVarint (rest.drop (81 * nSpent)) with
        | none => simp
        | some counted' =>
            obtain ⟨nCreated, tail⟩ := counted'
            simp

end BlockUndo

/-- `disconnect_block` on a machine on which a vector can ask for `capacity` entries: a
larger request aborts. -/
def UtxoStore.disconnectBlockWithin (capacity : Nat) (faults : RocksFaults) (s : UtxoStore)
    (height : UInt32) : Except (Stop UtxoError) Unit × UtxoStore :=
  match s.db.undo height with
  | none => s.disconnectBlock faults height
  | some raw =>
      if faults.get 0 = false ∧ ∃ n ∈ BlockUndo.capacities raw, capacity < n then
        (.error .panic, s)
      else
        s.disconnectBlock faults height

/-- Where RocksDB does not fail, a stored record is played or refused. -/
theorem disconnectBlock_of_record {s : UtxoStore} {height : UInt32} {raw : List UInt8}
    (hraw : s.db.undo height = some raw) :
    (s.disconnectBlock .none height).1 = .ok () ∨
      (s.disconnectBlock .none height).1 = .error (.error (.corruptUndo height)) := by
  simp only [UtxoStore.disconnectBlock, RocksFaults.none, hraw, Bool.false_eq_true, if_false]
  cases BlockUndo.decode raw with
  | none => exact .inr rfl
  | some undo => exact .inl rfl

/-- The capacities asked for are bounded by the record, and disconnecting plays or refuses
the record on every machine that can hold one entry per byte of it, exactly when the
record's two counts are bounded by its length. -/
theorem disconnectBlock_allocations_iff (b : List UInt8) :
    ((∀ n ∈ BlockUndo.capacities b, n ≤ b.length) ∧
      ∀ (capacity : Nat) (s : UtxoStore) (height : UInt32), b.length ≤ capacity →
        s.db.undo height = some b →
        (s.disconnectBlockWithin capacity .none height).1 = .ok () ∨
          (s.disconnectBlockWithin capacity .none height).1 =
            .error (.error (.corruptUndo height))) ↔
      BlockUndo.CountsFit b := by
  rw [← BlockUndo.capacities_fit_iff]
  refine and_iff_left_of_imp fun hfit capacity s height hcapacity hraw => ?_
  have hwithin : ¬((RocksFaults.none).get 0 = false ∧
      ∃ n ∈ BlockUndo.capacities b, capacity < n) := by
    rintro ⟨-, n, hn, hlt⟩
    have := hfit n hn
    omega
  rw [UtxoStore.disconnectBlockWithin, hraw]
  dsimp only
  rw [if_neg hwithin]
  exact disconnectBlock_of_record hraw

/-- A store whose undo record of height 1 is nine bytes that announce `2 ^ 64 - 1` spent
entries. -/
def overflowingRecord : UtxoStore :=
  .openLive ⟨fun _ => none, fun height => if height = 1 then some (List.replicate 9 0xff) else none,
    none⟩

/-- No vector of 88-byte entries has more than `2 ^ 63 / 88` of them. -/
theorem disconnectBlock_capacity_overflow :
    overflowingRecord.db.undo 1 = some (List.replicate 9 0xff) ∧
      ¬(∀ n ∈ BlockUndo.capacities (List.replicate 9 0xff),
        n ≤ (List.replicate 9 (0xff : UInt8)).length) ∧
      (overflowingRecord.disconnectBlockWithin (2 ^ 63 / 88) .none 1).1 = .error .panic := by
  refine ⟨rfl, by decide +kernel, by decide +kernel⟩

end Bidx
