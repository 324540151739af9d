import Mathlib.Algebra.GroupWithZero.Nat
import Mathlib.Data.List.DropRight

/-!
# Text files of lines and words

Reading a text line by line, splitting a line into words at white space, and
reading a word as an unsigned decimal number, each together with the lemma that
undoes the corresponding way of writing.  A text is a list of characters.

* `lines (unlines ls) = ls` for lines without line terminators;
* `splitWhitespace (a ++ ' ' :: b) = [a, b]` for words `a` and `b`;
* `parseUnsigned bound (Nat.toDigits 10 n) = some n` below the bound.
-/

namespace TextLines

/-- Quantification over a text is decided along its characters. -/
instance decidableBAllChar {p : Char → Prop} [DecidablePred p] (text : List Char) :
    Decidable (∀ c ∈ text, p c) :=
  List.decidableBAll p text

/-- The Unicode `White_Space` property. -/
def isWhitespace (c : Char) : Bool :=
  let n := c.toNat
  (0x09 ≤ n && n ≤ 0x0D) || n == 0x20 || n == 0x85 || n == 0xA0 || n == 0x1680 ||
    (0x2000 ≤ n && n ≤ 0x200A) || n == 0x2028 || n == 0x2029 || n == 0x202F || n == 0x205F ||
    n == 0x3000

/-! ## Lines -/

/-- A carriage return in front of a line's end belongs to the line's terminator. -/
def stripCr (line : List Char) : List Char :=
  if line.getLast? = some '\r' then line.dropLast else line

/-- The lines of a text; a text that does not end in a line feed has one more line,
kept as it is. -/
def lines (text : List Char) : List (List Char) :=
  let pieces := text.splitOnP (· == '\n')
  let rest := pieces.getLast?.getD []
  pieces.dropLast.map stripCr ++ if rest = [] then [] else [rest]

/-- A line as it is written out. -/
def writeln (line : List Char) : List Char := line ++ ['\n']

def unlines (ls : List (List Char)) : List Char := ls.flatMap writeln

theorem unlines_append (ls ls' : List (List Char)) :
    unlines (ls ++ ls') = unlines ls ++ unlines ls' := List.flatMap_append

/-- A line that can be read back: it holds no part of a line terminator. -/
def IsLine (line : List Char) : Prop := ∀ c ∈ line, c ≠ '\n' ∧ c ≠ '\r'

theorem stripCr_of_isLine {line : List Char} (h : IsLine line) : stripCr line = line := by
  rw [stripCr, if_neg]
  intro hlast
  exact (h '\r' (List.mem_of_getLast? hlast)).2 rfl

theorem splitOnP_unlines {ls : List (List Char)} (h : ∀ line ∈ ls, IsLine line) :
    (unlines ls).splitOnP (· == '\n') = ls ++ [[]] := by
  induction ls with
  | nil => rfl
  | cons line ls ih =>
      have hline : ∀ c ∈ line, (c == '\n') = false := by
        intro c hc
        exact beq_false_of_ne (h line List.mem_cons_self c hc).1
      have hcons : unlines (line :: ls) = line ++ '\n' :: unlines ls := by
        simp [unlines, writeln]
      rw [hcons, List.splitOnP_append_cons_of_forall_mem hline '\n' rfl,
        ih fun l hl => h l (List.mem_cons_of_mem _ hl), List.cons_append]

theorem lines_unlines {ls : List (List Char)} (h : ∀ line ∈ ls, IsLine line) :
    lines (unlines ls) = ls := by
  have hmap : ls.map stripCr = ls := by
    rw [List.map_congr_left fun line hline => stripCr_of_isLine (h line hline), List.map_id']
  simp [lines, splitOnP_unlines h, hmap]

/-! ## Words -/

/-- A nonempty run of characters that are not white space. -/
def IsWord (word : List Char) : Prop := word ≠ [] ∧ ∀ c ∈ word, isWhitespace c = false

instance (word : List Char) : Decidable (IsWord word) := inferInstanceAs (Decidable (_ ∧ _))

/-- Without the white space at both ends. -/
def trim (s : List Char) : List Char := (s.dropWhile isWhitespace).rdropWhile isWhitespace

def splitWhitespace (s : List Char) : List (List Char) :=
  (s.splitOnP isWhitespace).filter (· ≠ [])

theorem IsWord.isLine {word : List Char} (h : IsWord word) : IsLine word := by
  intro c hc
  have hspace := h.2 c hc
  constructor
  · rintro rfl
    exact absurd hspace (by decide)
  · rintro rfl
    exact absurd hspace (by decide)

section Pair

variable {a b : List Char}

/-- Two words, one space between them. -/
theorem isLine_pair (ha : IsWord a) (hb : IsWord b) : IsLine (a ++ ' ' :: b) := by
  intro c hc
  rcases List.mem_append.mp hc with hc | hc
  · exact ha.isLine c hc
  · rcases List.mem_cons.mp hc with rfl | hc
    · decide
    · exact hb.isLine c hc

theorem trim_pair (ha : IsWord a) (hb : IsWord b) : trim (a ++ ' ' :: b) = a ++ ' ' :: b := by
  have hfirst : (a ++ ' ' :: b).dropWhile isWhitespace = a ++ ' ' :: b := by
    obtain ⟨c, a, rfl⟩ := List.exists_cons_of_ne_nil ha.1
    have hc := ha.2 c List.mem_cons_self
    rw [List.cons_append, List.dropWhile_cons_of_neg (by simp [hc])]
  have hlast : ∀ c ∈ (a ++ ' ' :: b).getLast?, isWhitespace c = false := by
    intro c hc
    have hne : ' ' :: b ≠ [] := List.cons_ne_nil _ _
    rw [List.getLast?_append_of_ne_nil _ hne, List.getLast?_cons_of_ne_nil hb.1] at hc
    exact hb.2 c (List.mem_of_getLast? hc)
  rw [trim, hfirst, List.rdropWhile_eq_self_iff]
  intro hne hspace
  rw [hlast _ (List.getLast?_eq_some_getLast hne)] at hspace
  contradiction

theorem splitWhitespace_pair (ha : IsWord a) (hb : IsWord b) :
    splitWhitespace (a ++ ' ' :: b) = [a, b] := by
  rw [splitWhitespace, List.splitOnP_append_cons_of_forall_mem ha.2 ' ' (by decide),
    List.splitOnP_eq_singleton hb.2]
  simp [ha.1, hb.1]

end Pair

/-! ## Decimal numbers -/

/-- The digits are added up from the left; a digit that is none or a value that
leaves the range ends in failure. -/
def parseDigits (bound : Nat) : Nat → List Char → Option Nat
  | acc, [] => some acc
  | acc, c :: cs =>
      if c.isDigit then
        let acc := 10 * acc + (c.toNat - '0'.toNat)
        if acc < bound then parseDigits bound acc cs else none
      else
        none

/-- A decimal number below `bound`, with at most one plus sign in front. -/
def parseUnsigned (bound : Nat) (s : List Char) : Option Nat :=
  let digits := match s with
    | '+' :: rest => rest
    | s => s
  if digits = [] then none else parseDigits bound 0 digits

theorem toNat_of_isDigit {c : Char} (h : c.isDigit) : 48 ≤ c.toNat ∧ c.toNat ≤ 57 := by
  simp only [Char.isDigit, Bool.and_eq_true, decide_eq_true_eq, UInt32.le_iff_toNat_le] at h
  exact h

theorem le_ofDigitChars (cs : List Char) (acc : Nat) : acc ≤ Nat.ofDigitChars 10 cs acc := by
  induction cs generalizing acc with
  | nil => rw [Nat.ofDigitChars_nil]
  | cons c cs ih =>
      rw [Nat.ofDigitChars_cons]
      exact le_trans (by omega) (ih _)

theorem parseDigits_eq {bound acc : Nat} {cs : List Char} (hdigits : ∀ c ∈ cs, c.isDigit)
    (hlt : Nat.ofDigitChars 10 cs acc < bound) :
    parseDigits bound acc cs = some (Nat.ofDigitChars 10 cs acc) := by
  induction cs generalizing acc with
  | nil => rw [parseDigits, Nat.ofDigitChars_nil]
  | cons c cs ih =>
      rw [Nat.ofDigitChars_cons] at hlt ⊢
      have hacc := le_ofDigitChars cs (10 * acc + (c.toNat - '0'.toNat))
      rw [parseDigits, if_pos (hdigits c List.mem_cons_self)]
      simp only
      rw [if_pos (by omega)]
      exact ih (fun c hc => hdigits c (List.mem_cons_of_mem _ hc)) hlt

theorem isDigit_toDigits {n : Nat} {c : Char} (hc : c ∈ Nat.toDigits 10 n) : c.isDigit :=
  Nat.isDigit_of_mem_toDigits (by decide) (by decide) hc

theorem isWord_toDigits (n : Nat) : IsWord (Nat.toDigits 10 n) := by
  refine ⟨Nat.toDigits_ne_nil, ?_⟩
  intro c hc
  have hrange := toNat_of_isDigit (isDigit_toDigits hc)
  simp only [isWhitespace, Bool.or_eq_false_iff, Bool.and_eq_false_iff, decide_eq_false_iff_not,
    beq_eq_false_iff_ne]
  omega

/-- A string of digits has no sign to skip. -/
theorem parseUnsigned_of_digits {bound : Nat} {s : List Char} (hdigits : ∀ c ∈ s, c.isDigit) :
    parseUnsigned bound s = if s = [] then none else parseDigits bound 0 s := by
  cases s with
  | nil => rfl
  | cons c cs =>
      have hsign : c ≠ '+' := by
        rintro rfl
        exact absurd (hdigits '+' List.mem_cons_self) (by decide)
      simp [parseUnsigned, hsign]

theorem parseUnsigned_toDigits {n bound : Nat} (hlt : n < bound) :
    parseUnsigned bound (Nat.toDigits 10 n) = some n := by
  have hdigits : ∀ c ∈ Nat.toDigits 10 n, c.isDigit := fun c hc => isDigit_toDigits hc
  rw [parseUnsigned_of_digits hdigits, if_neg Nat.toDigits_ne_nil,
    parseDigits_eq hdigits (by rwa [Nat.ofDigitChars_ten_toDigits]),
    Nat.ofDigitChars_ten_toDigits]

theorem parseDigits_eq_some {bound acc n : Nat} {cs : List Char} (hacc : acc < bound)
    (h : parseDigits bound acc cs = some n) : Nat.ofDigitChars 10 cs acc = n ∧ n < bound := by
  induction cs generalizing acc with
  | nil =>
      obtain rfl := Option.some.inj h
      exact ⟨Nat.ofDigitChars_nil, hacc⟩
  | cons c cs ih =>
      rw [parseDigits] at h
      dsimp only at h
      split_ifs at h with hdigit hlt
      rw [Nat.ofDigitChars_cons]
      exact ih hlt h

theorem parseUnsigned_eq_some {bound n : Nat} {s : List Char} (hbound : 0 < bound)
    (hdigits : ∀ c ∈ s, c.isDigit) (h : parseUnsigned bound s = some n) :
    Nat.ofDigitChars 10 s 0 = n ∧ n < bound := by
  rw [parseUnsigned_of_digits hdigits] at h
  split_ifs at h
  exact parseDigits_eq_some hbound h

/-! Numbers of one width are ordered as their digits are. -/

section DigitOrder

variable {as bs : List Char}

theorem ofDigitChars_lt_of_acc (hlen : as.length = bs.length) (has : ∀ c ∈ as, c.isDigit)
    {acc acc' : Nat} (hacc : acc < acc') :
    Nat.ofDigitChars 10 as acc < Nat.ofDigitChars 10 bs acc' := by
  induction as generalizing bs acc acc' with
  | nil =>
      obtain rfl := List.length_eq_zero_iff.mp hlen.symm
      simpa only [Nat.ofDigitChars_nil] using hacc
  | cons a as ih =>
      obtain ⟨b, bs, rfl⟩ := List.exists_cons_of_length_eq_add_one hlen.symm
      have hdigit := toNat_of_isDigit (has a List.mem_cons_self)
      have hzero : '0'.toNat = 48 := rfl
      rw [Nat.ofDigitChars_cons, Nat.ofDigitChars_cons]
      exact ih (by simpa using hlen) (fun c hc => has c (List.mem_cons_of_mem _ hc)) (by omega)

theorem ofDigitChars_lt_of_lt (hlen : as.length = bs.length) (has : ∀ c ∈ as, c.isDigit)
    (h : as < bs) (acc : Nat) : Nat.ofDigitChars 10 as acc < Nat.ofDigitChars 10 bs acc := by
  induction as generalizing bs acc with
  | nil =>
      obtain rfl := List.length_eq_zero_iff.mp hlen.symm
      exact absurd h (List.lt_irrefl [])
  | cons a as ih =>
      obtain ⟨b, bs, rfl⟩ := List.exists_cons_of_length_eq_add_one hlen.symm
      have hrest : as.length = bs.length := by simpa using hlen
      have hdigits : ∀ c ∈ as, c.isDigit := fun c hc => has c (List.mem_cons_of_mem _ hc)
      have hdigit := toNat_of_isDigit (has a List.mem_cons_self)
      have hzero : '0'.toNat = 48 := rfl
      rw [Nat.ofDigitChars_cons, Nat.ofDigitChars_cons]
      rcases List.cons_lt_cons_iff.mp h with hlt | ⟨rfl, hlt⟩
      · have hnum : a.toNat < b.toNat := hlt
        exact ofDigitChars_lt_of_acc hrest hdigits (by omega)
      · exact ih hrest hdigits hlt _

theorem ofDigitChars_lt_pow (has : ∀ c ∈ as, c.isDigit) (acc : Nat) :
    Nat.ofDigitChars 10 as acc < 10 ^ as.length * (acc + 1) := by
  induction as generalizing acc with
  | nil => simp
  | cons a as ih =>
      have hdigit := toNat_of_isDigit (has a List.mem_cons_self)
      have hzero : '0'.toNat = 48 := rfl
      have hrest := ih (fun c hc => has c (List.mem_cons_of_mem _ hc))
        (10 * acc + (a.toNat - '0'.toNat))
      rw [Nat.ofDigitChars_cons, List.length_cons, Nat.pow_succ, Nat.mul_assoc]
      exact hrest.trans_le (Nat.mul_le_mul_left _ (by omega))

/-- Strings of digits of one length that say the same number are the same. -/
theorem eq_of_ofDigitChars_eq (hlen : as.length = bs.length) (has : ∀ c ∈ as, c.isDigit)
    (hbs : ∀ c ∈ bs, c.isDigit) (acc : Nat)
    (h : Nat.ofDigitChars 10 as acc = Nat.ofDigitChars 10 bs acc) : as = bs := by
  induction as generalizing bs acc with
  | nil => exact (List.length_eq_zero_iff.mp hlen.symm).symm
  | cons a as ih =>
      obtain ⟨b, bs, rfl⟩ := List.exists_cons_of_length_eq_add_one hlen.symm
      have hrest : as.length = bs.length := by simpa using hlen
      have hdigits : ∀ c ∈ as, c.isDigit := fun c hc => has c (List.mem_cons_of_mem _ hc)
      have hdigits' : ∀ c ∈ bs, c.isDigit := fun c hc => hbs c (List.mem_cons_of_mem _ hc)
      have hdigit := toNat_of_isDigit (has a List.mem_cons_self)
      have hdigit' := toNat_of_isDigit (hbs b List.mem_cons_self)
      have hzero : '0'.toNat = 48 := rfl
      rw [Nat.ofDigitChars_cons, Nat.ofDigitChars_cons] at h
      rcases lt_trichotomy a.toNat b.toNat with hlt | heq | hlt
      · exact absurd h (ofDigitChars_lt_of_acc hrest hdigits (by omega)).ne
      · obtain rfl := Char.toNat_inj.mp heq
        rw [ih hrest hdigits hdigits' _ h]
      · exact absurd h (ofDigitChars_lt_of_acc hrest.symm hdigits' (by omega)).ne'

/-- Printing the number of a string of digits, filled up with zeros to its length. -/
theorem leftpad_toDigits (hne : as ≠ []) (has : ∀ c ∈ as, c.isDigit) :
    List.leftpad as.length '0' (Nat.toDigits 10 (Nat.ofDigitChars 10 as 0)) = as := by
  have hfits : (Nat.toDigits 10 (Nat.ofDigitChars 10 as 0)).length ≤ as.length :=
    (Nat.length_toDigits_le_iff (by decide) (List.length_pos_iff.mpr hne)).mpr
      (by simpa using ofDigitChars_lt_pow has 0)
  refine eq_of_ofDigitChars_eq ?_ ?_ has 0 ?_
  · rw [List.length_leftpad]
    omega
  · intro c hc
    rw [List.leftpad, List.mem_append] at hc
    rcases hc with hzero | hdigit
    · rw [(List.mem_replicate.mp hzero).2]
      decide
    · exact isDigit_toDigits hdigit
  · rw [List.leftpad, Nat.ofDigitChars_append, Nat.ofDigitChars_replicate_zero, Nat.mul_zero,
      Nat.ofDigitChars_ten_toDigits]

/-- A common end does not matter to the order of strings of one length. -/
theorem append_lt_append_iff (hlen : as.length = bs.length) (cs : List Char) :
    as ++ cs < bs ++ cs ↔ as < bs := by
  induction as generalizing bs with
  | nil =>
      obtain rfl := List.length_eq_zero_iff.mp hlen.symm
      exact iff_of_false (List.lt_irrefl cs) (List.lt_irrefl [])
  | cons a as ih =>
      obtain ⟨b, bs, rfl⟩ := List.exists_cons_of_length_eq_add_one hlen.symm
      rw [List.cons_append, List.cons_append, List.cons_lt_cons_iff, List.cons_lt_cons_iff,
        ih (by simpa using hlen)]

end DigitOrder

end TextLines
