import Mathlib.Data.Char
import Mathlib.Data.List.Lex
import Bidx.Lib.TextLines
import Bidx.Parser.BlkFraming

/-!
# The blocks directory

Two readers start from a blocks directory.  The header pass lists the files whose
name is `blk`, five digits and `.dat`, in the order of their numbers, and opens them
with the key of `xor.dat`.  The network detection takes the first name between
`blk` and `.dat` and looks at the first four bytes on disk.

The directory is given by its entries in the order they are listed, each with the
bytes that can be read of it, `none` where it cannot be read.  `none` in the place
of the directory is one that cannot be listed.
-/

namespace Bidx

open LittleEndian Keystream TextLines

/-- The names and contents, in the order of `read_dir`. -/
abbrev BlocksDir := List (List Char × Option (List UInt8))

/-- Reading the file of a name. -/
def BlocksDir.read (dir : BlocksDir) (name : List Char) : Option (List UInt8) :=
  (dir.lookup name).join

def xorDatName : List Char := "xor.dat".toList

/-! ## The header pass -/

/-- `parse_blk_name`. -/
def parseBlkName (name : List Char) : Option UInt32 := do
  let rest ← name.dropPrefix? "blk".toList
  let stem ← rest.dropSuffix? ".dat".toList
  if stem.length ≠ 5 ∨ ¬stem.all Char.isDigit then
    none
  else
    (parseUnsigned (2 ^ 32) stem).map UInt32.ofNat

/-- `discover_blk_files`. -/
def discoverBlkFiles (dir : Option BlocksDir) : Except BlkError (List (UInt32 × List Char)) :=
  match dir with
  | none => .error .io
  | some entries =>
      let out := entries.filterMap fun e => (parseBlkName e.1).map fun id => (id, e.1)
      let out := out.mergeSort fun file file' => file.1 ≤ file'.1
      if out = [] then .error .noFiles else .ok out

/-! ## Network detection -/

/-- The name test of `detect_from_blocks_dir`. -/
def isBlkDat (name : List Char) : Bool :=
  "blk".toList.isPrefixOf name && ".dat".toList.isSuffixOf name

/-- `Network::detect_from_blocks_dir`. -/
def detectFromBlocksDir (dir : Option BlocksDir) : Option Network := do
  let entries := (← dir).filter fun e => isBlkDat e.1
  let entries := entries.mergeSort fun e e' => e.1 ≤ e'.1
  let first ← entries.head?
  let data ← first.2
  if data.length < 4 then none else Network.fromMagic (u32At data 0)

/-! ## Numbered names -/

section Names

variable {name name' : List Char} {id id' : UInt32}

theorem parseBlkName_eq_some (h : parseBlkName name = some id) :
    ∃ stem, name = "blk".toList ++ (stem ++ ".dat".toList) ∧ stem.length = 5 ∧
      (∀ c ∈ stem, c.isDigit) ∧ id.toNat = Nat.ofDigitChars 10 stem 0 := by
  simp only [parseBlkName, Option.bind_eq_bind, Option.bind_eq_some_iff,
    List.dropPrefix?_eq_some_iff, List.dropSuffix?_eq_some_iff, beq_iff_eq] at h
  obtain ⟨rest, ⟨_, rfl, rfl⟩, stem, ⟨_, rfl, rfl⟩, h⟩ := h
  split_ifs at h with hstem
  rw [not_or, not_not, not_not, List.all_eq_true] at hstem
  obtain ⟨n, hn, rfl⟩ := Option.map_eq_some_iff.mp h
  obtain ⟨hvalue, hlt⟩ := parseUnsigned_eq_some (by decide) hstem.2 hn
  refine ⟨stem, rfl, hstem.1, hstem.2, ?_⟩
  rw [hvalue, UInt32.toNat_ofNat', Nat.mod_eq_of_lt hlt]

theorem isBlkDat_of_parse (h : parseBlkName name = some id) : isBlkDat name = true := by
  obtain ⟨stem, rfl, -⟩ := parseBlkName_eq_some h
  rw [isBlkDat, Bool.and_eq_true, List.isPrefixOf_iff_prefix, List.isSuffixOf_iff_suffix]
  exact ⟨List.prefix_append _ _, ⟨"blk".toList ++ stem, by rw [List.append_assoc]⟩⟩

/-- Names are ordered as their numbers are. -/
theorem parseBlkName_lt (h : parseBlkName name = some id) (h' : parseBlkName name' = some id')
    (hlt : name < name') : id < id' := by
  obtain ⟨stem, rfl, hlen, hdigits, hid⟩ := parseBlkName_eq_some h
  obtain ⟨stem', rfl, hlen', -, hid'⟩ := parseBlkName_eq_some h'
  have hstem : stem < stem' := by
    rw [← append_lt_append_iff (hlen.trans hlen'.symm) ".dat".toList]
    simpa [List.cons_lt_cons_iff] using hlt
  rw [UInt32.lt_iff_toNat_lt, hid, hid']
  exact ofDigitChars_lt_of_lt (hlen.trans hlen'.symm) hdigits hstem 0

end Names

/-! ## Sorting by a key -/

section SortByKey

variable {α β : Type*} [LE β] [DecidableLE β] [Std.IsLinearOrder β] (key : α → β)

theorem pairwise_mergeSort_key (l : List α) :
    (l.mergeSort fun a b => key a ≤ key b).Pairwise fun a b => key a ≤ key b := by
  have htrans : ∀ a b d, decide (key a ≤ key b) → decide (key b ≤ key d) →
      decide (key a ≤ key d) := by
    intro a b d hab hbd
    rw [decide_eq_true_eq] at hab hbd ⊢
    exact Std.le_trans hab hbd
  have htotal : ∀ a b, decide (key a ≤ key b) || decide (key b ≤ key a) := by
    intro a b
    rw [Bool.or_eq_true, decide_eq_true_eq, decide_eq_true_eq]
    exact Std.le_total
  exact (List.pairwise_mergeSort htrans htotal l).imp of_decide_eq_true

/-- A list sorted by a key starts with the element that alone has the least key. -/
theorem head?_mergeSort_of_least {l : List α} {x : α} (hx : x ∈ l)
    (hleast : ∀ y ∈ l, key y ≤ key x → y = x) :
    (l.mergeSort fun a b => key a ≤ key b).head? = some x := by
  have hsorted := pairwise_mergeSort_key key l
  have hmem : x ∈ l.mergeSort fun a b => key a ≤ key b := List.mem_mergeSort.mpr hx
  obtain ⟨y, rest, hl⟩ := List.exists_cons_of_ne_nil (List.ne_nil_of_mem hmem)
  have hy : y ∈ l := List.mem_mergeSort.mp (hl ▸ List.mem_cons_self)
  rw [hl] at hsorted hmem ⊢
  rw [List.head?_cons]
  rcases List.mem_cons.mp hmem with rfl | hrest
  · rfl
  · rw [hleast y hy (List.rel_of_pairwise_cons hsorted hrest)]

end SortByKey

/-! ## The file both readers start with -/

section Lowest

variable {dir : BlocksDir} {name : List Char} {id : UInt32} {files : List (UInt32 × List Char)}

theorem read_of_mem (hnames : (dir.map Prod.fst).Nodup) {content : Option (List UInt8)}
    (hmem : (name, content) ∈ dir) : dir.read name = content := by
  obtain ⟨pre, post, rfl⟩ := List.append_of_mem hmem
  have hlookup : (pre ++ (name, content) :: post).lookup name = some content := by
    rw [List.lookup_eq_some_iff]
    refine ⟨pre, post, rfl, fun e he => ?_⟩
    rw [bne_iff_ne]
    rintro rfl
    rw [List.map_append, List.map_cons, List.nodup_append] at hnames
    exact hnames.2.2 e.1 (List.mem_map_of_mem he) e.1 List.mem_cons_self rfl
  rw [BlocksDir.read, hlookup]
  rfl

/-- The header pass lists the blk files. -/
theorem mem_discoverBlkFiles (h : discoverBlkFiles (some dir) = .ok files)
    {file : UInt32 × List Char} :
    file ∈ files ↔ ∃ e ∈ dir, parseBlkName e.1 = some file.1 ∧ e.1 = file.2 := by
  rw [discoverBlkFiles] at h
  split_ifs at h
  obtain rfl := Except.ok.inj h
  rw [List.mem_mergeSort, List.mem_filterMap]
  simp only [Option.map_eq_some_iff]
  constructor
  · rintro ⟨e, he, number, hnumber, rfl⟩
    exact ⟨e, he, hnumber, rfl⟩
  · rintro ⟨e, he, hnumber, hname⟩
    exact ⟨e, he, file.1, hnumber, Prod.ext rfl hname⟩

theorem pairwise_discoverBlkFiles (h : discoverBlkFiles (some dir) = .ok files) :
    files.Pairwise fun file file' => file.1 ≤ file'.1 := by
  rw [discoverBlkFiles] at h
  split_ifs at h
  obtain rfl := Except.ok.inj h
  exact pairwise_mergeSort_key Prod.fst _

/-- The first file the header pass lists has the lowest number of all. -/
theorem discoverBlkFiles_first (h : discoverBlkFiles (some dir) = .ok ((id, name) :: files)) :
    parseBlkName name = some id ∧ (∃ content, (name, content) ∈ dir) ∧
      ∀ e ∈ dir, ∀ id', parseBlkName e.1 = some id' → id ≤ id' := by
  obtain ⟨⟨_, content⟩, he, hparse, rfl⟩ := (mem_discoverBlkFiles h).mp List.mem_cons_self
  refine ⟨hparse, ⟨content, he⟩, fun e' he' id' hid' => ?_⟩
  have hmem : (id', e'.1) ∈ (id, _) :: files := (mem_discoverBlkFiles h).mpr ⟨e', he', hid', rfl⟩
  rcases List.mem_cons.mp hmem with heq | hrest
  · have hid : id' = id := congrArg Prod.fst heq
    rw [hid]
    exact Std.le_refl id
  · exact List.rel_of_pairwise_cons (pairwise_discoverBlkFiles h) hrest

/-- No other name that network detection considers comes before the lowest blk file's. -/
theorem eq_of_isBlkDat_of_le (honly : ∀ e ∈ dir, (parseBlkName e.1).isSome ∨ e.1 = xorDatName)
    (hname : parseBlkName name = some id)
    (hlowest : ∀ e ∈ dir, ∀ id', parseBlkName e.1 = some id' → id ≤ id')
    {e : List Char × Option (List UInt8)} (he : e ∈ dir) (hblk : isBlkDat e.1 = true)
    (hle : e.1 ≤ name) : e.1 = name := by
  rcases honly e he with hparse | hxor
  · obtain ⟨id', hid'⟩ := Option.isSome_iff_exists.mp hparse
    by_contra hne
    have hlt := parseBlkName_lt hid' hname (Std.lt_of_le_of_ne hle hne)
    exact Std.not_le_of_gt hlt (hlowest e he id' hid')
  · rw [hxor] at hblk
    exact absurd hblk (by decide)

/-- Network detection looks at the file with the lowest number. -/
theorem detect_eq_of_first (hnames : (dir.map Prod.fst).Nodup)
    (honly : ∀ e ∈ dir, (parseBlkName e.1).isSome ∨ e.1 = xorDatName)
    (h : discoverBlkFiles (some dir) = .ok ((id, name) :: files)) {data : List UInt8}
    (hdata : dir.read name = some data) (hlen : 4 ≤ data.length) :
    detectFromBlocksDir (some dir) = Network.fromMagic (u32At data 0) := by
  obtain ⟨hname, ⟨content, hmem⟩, hlowest⟩ := discoverBlkFiles_first h
  obtain rfl : content = some data := (read_of_mem hnames hmem).symm.trans hdata
  have hentry : (name, some data) ∈ dir.filter fun e => isBlkDat e.1 :=
    List.mem_filter.mpr ⟨hmem, isBlkDat_of_parse hname⟩
  have hfirst : ((dir.filter fun e => isBlkDat e.1).mergeSort fun e e' => e.1 ≤ e'.1).head? =
      some (name, some data) := by
    apply head?_mergeSort_of_least Prod.fst hentry
    intro e he hle
    obtain ⟨he, hblk⟩ := List.mem_filter.mp he
    have hsame : e.1 = name := eq_of_isBlkDat_of_le honly hname hlowest he hblk hle
    have hcontent : e.2 = some data := by
      rw [← read_of_mem hnames he, hsame, hdata]
    exact Prod.ext hsame hcontent
  simp only [detectFromBlocksDir, Option.bind_eq_bind, Option.bind_some, hfirst]
  rw [if_neg (by omega)]

end Lowest

/-! ## The key decides -/

/-- The first item of the file is a record, with no padding in front of it. -/
structure StartsWithRecord (f : MappedBlkFile) (rec : BlkRecord) : Prop where
  first : f.records.head? = some (.ok rec)
  at_zero : skipPadding f.data 0 = 0

section Key

variable {f : MappedBlkFile} {rec : BlkRecord}

theorem StartsWithRecord.header (h : StartsWithRecord f rec) :
    8 ≤ f.data.length ∧ isKnownNetworkMagic (u32At f.data 0) = true := by
  have hfirst := h.first
  rw [MappedBlkFile.records, BlkRecordIter.items, BlkRecordIter.next] at hfirst
  simp only [h.at_zero] at hfirst
  by_cases hlen : f.data.length < 0 + 8
  · simp [hlen] at hfirst
  · by_cases hknown : isKnownNetworkMagic (u32At f.data 0) = true
    · exact ⟨by omega, hknown⟩
    · simp [hlen, readRecord, hknown] at hfirst

/-- The meaningful bytes are the first of the decoded ones. -/
theorem openAt_data {fileId : UInt32} {raw : List UInt8} {xorDat : Option (List UInt8)}
    (h : MappedBlkFile.openAt fileId (some raw) xorDat = .ok f) :
    f.data = (decodedBytes raw (readXorKey xorDat)).take f.dataEnd := by
  obtain rfl := Except.ok.inj h
  rw [MappedBlkFile.data]
  cases readXorKey xorDat with
  | none => rfl
  | some key => rfl

theorem u32At_take {data : List UInt8} {count : Nat} (h : 4 ≤ count) :
    u32At (data.take count) 0 = u32At data 0 := by
  rw [u32At, u32At, List.drop_zero, List.drop_zero, List.take_take, min_eq_left h]

/-- Decoding keeps the first word only under a key that starts with four zeros. -/
theorem u32At_xorDecode_eq_iff {raw : List UInt8} (hlen : 4 ≤ raw.length) (key : Bytes 8) :
    u32At raw 0 = u32At (xorDecode raw key) 0 ↔ ∀ i < 4, keyByte key i = 0 := by
  have hword : (raw.take 4).length = 4 := List.length_take_of_le hlen
  rw [xorDecode_eq_mask, u32At, u32At, List.drop_zero, List.drop_zero, take_mask]
  constructor
  · intro h
    have hmask : (mask (keyByte key) 0 (raw.take 4)).length = 4 := by rw [length_mask, hword]
    have hself : mask (keyByte key) 0 (raw.take 4) = raw.take 4 := by
      rw [← toBytes_ofBytes_u32 hmask, ← h, toBytes_ofBytes_u32 hword]
    simpa [hword] using (mask_eq_self_iff 0 (raw.take 4)).mp hself
  · intro h
    rw [(mask_eq_self_iff 0 (raw.take 4)).mpr (by simpa [hword] using h)]

/-- Detection agrees with the header pass on a directory of blk files exactly when
the first word on disk is not obfuscated. -/
theorem detect_agrees_iff {dir : BlocksDir} (hnames : (dir.map Prod.fst).Nodup)
    (honly : ∀ e ∈ dir, (parseBlkName e.1).isSome ∨ e.1 = xorDatName)
    {id : UInt32} {name : List Char} {files : List (UInt32 × List Char)}
    (hfiles : discoverBlkFiles (some dir) = .ok ((id, name) :: files))
    (hopen : MappedBlkFile.openAt id (dir.read name) (dir.read xorDatName) = .ok f)
    (hfirst : StartsWithRecord f rec) :
    detectFromBlocksDir (some dir) = Network.fromMagic (u32At f.data 0) ↔
      ∀ key, readXorKey (dir.read xorDatName) = some key → ∀ i < 4, keyByte key i = 0 := by
  obtain ⟨hlen, hknown⟩ := hfirst.header
  cases hread : dir.read name with
  | none =>
      rw [hread] at hopen
      contradiction
  | some raw =>
      rw [hread] at hopen
      have hdata := openAt_data hopen
      rw [hdata, List.length_take, length_decodedBytes] at hlen
      have hword : u32At f.data 0 =
          u32At (decodedBytes raw (readXorKey (dir.read xorDatName))) 0 := by
        rw [hdata, u32At_take (by omega)]
      rw [detect_eq_of_first hnames honly hfiles hread (by omega), Network.fromMagic_eq_iff hknown,
        hword]
      cases readXorKey (dir.read xorDatName) with
      | none => simp [decodedBytes]
      | some key =>
          simp only [decodedBytes, Option.some.injEq, forall_eq']
          exact u32At_xorDecode_eq_iff (by omega) key

end Key

/-! A directory with one obfuscated file of one record. -/

def firstBlkName : List Char := "blk00000.dat".toList

def oneFileDir (key : Bytes 8) : BlocksDir := [
  (firstBlkName, some (xorDecode sampleFrame.bytes key)),
  (xorDatName, some key.toList)]

theorem discoverBlkFiles_oneFileDir (key : Bytes 8) :
    discoverBlkFiles (some (oneFileDir key)) = .ok [(0, firstBlkName)] := by
  have hblk : parseBlkName firstBlkName = some 0 := by decide
  have hxor : parseBlkName xorDatName = none := by decide
  simp [discoverBlkFiles, oneFileDir, hblk, hxor]

theorem names_oneFileDir (key : Bytes 8) :
    ((oneFileDir key).map Prod.fst).Nodup ∧
      ∀ e ∈ oneFileDir key, (parseBlkName e.1).isSome ∨ e.1 = xorDatName := by
  have hblk : (parseBlkName firstBlkName).isSome := by decide
  have hne : firstBlkName ≠ xorDatName := by decide
  simp [oneFileDir, hblk, hne]

theorem read_oneFileDir (key : Bytes 8) :
    (oneFileDir key).read firstBlkName = some (xorDecode sampleFrame.bytes key) ∧
      (oneFileDir key).read xorDatName = some key.toList :=
  ⟨read_of_mem (names_oneFileDir key).1 (by simp [oneFileDir]),
    read_of_mem (names_oneFileDir key).1 (by simp [oneFileDir])⟩

theorem openAt_oneFileDir {key : Bytes 8} (hkey : key ≠ zeroBytes 8) :
    ∃ f, MappedBlkFile.openAt 0 ((oneFileDir key).read firstBlkName)
        ((oneFileDir key).read xorDatName) = .ok f ∧
      f.data = sampleFrame.bytes ∧ StartsWithRecord f (sampleFrame.recordAt 0 0) := by
  have hraw : decodedBytes (xorDecode sampleFrame.bytes key) (readXorKey (some key.toList)) =
      framed [sampleFrame] ++ [] := by
    rw [readXorKey_toList hkey, decodedBytes, xorDecode_eq_mask, xorDecode_eq_mask, mask_mask,
      List.append_nil, framed_cons, framed_nil, List.append_nil]
  obtain ⟨f, hopen, hid, hdata, -⟩ := openAt_framed 0 (by simp) hraw
    (not_frameAt_short (by rw [List.append_nil]; omega))
  rw [framed_cons, framed_nil, List.append_nil] at hdata
  refine ⟨f, by rw [(read_oneFileDir key).1, (read_oneFileDir key).2, hopen], hdata, ?_, ?_⟩
  · have hitems := @items_framed [] [sampleFrame] 0 (sampleFrame.bytes.length + 1) (by simp)
    rw [List.nil_append, framed_cons, framed_nil, List.append_nil] at hitems
    rw [MappedBlkFile.records, hid, hdata]
    exact congrArg List.head? hitems
  · rw [hdata]
    decide

/-- A key that leaves the first word of a file alone. -/
def quietKey : Bytes 8 := ⟨[0, 0, 0, 0, 0x55, 0x66, 0x77, 0x88], rfl⟩

theorem detect_misses_obfuscated :
    ∃ (dir : BlocksDir) (id : UInt32) (name : List Char) (f : MappedBlkFile) (rec : BlkRecord),
      (dir.map Prod.fst).Nodup ∧
      (∀ e ∈ dir, (parseBlkName e.1).isSome ∨ e.1 = xorDatName) ∧
      discoverBlkFiles (some dir) = .ok [(id, name)] ∧
      MappedBlkFile.openAt id (dir.read name) (dir.read xorDatName) = .ok f ∧
      StartsWithRecord f rec ∧
      Network.fromMagic (u32At f.data 0) = some .mainnet ∧
      detectFromBlocksDir (some dir) = none := by
  obtain ⟨f, hopen, hdata, hfirst⟩ := @openAt_oneFileDir sampleKey (by decide)
  obtain ⟨hnames, honly⟩ := names_oneFileDir sampleKey
  refine ⟨oneFileDir sampleKey, 0, firstBlkName, f, _, hnames, honly,
    discoverBlkFiles_oneFileDir sampleKey, hopen, hfirst, ?_, ?_⟩
  · rw [hdata]
    decide
  · rw [detect_eq_of_first hnames honly (discoverBlkFiles_oneFileDir sampleKey)
      (read_oneFileDir sampleKey).1 (by decide)]
    decide

theorem detect_agrees_quiet :
    ∃ f, MappedBlkFile.openAt 0 ((oneFileDir quietKey).read firstBlkName)
        ((oneFileDir quietKey).read xorDatName) = .ok f ∧
      detectFromBlocksDir (some (oneFileDir quietKey)) = Network.fromMagic (u32At f.data 0) := by
  obtain ⟨f, hopen, hdata, hfirst⟩ := @openAt_oneFileDir quietKey (by decide)
  obtain ⟨hnames, honly⟩ := names_oneFileDir quietKey
  refine ⟨f, hopen, (detect_agrees_iff hnames honly (discoverBlkFiles_oneFileDir quietKey) hopen
    hfirst).mpr ?_⟩
  rw [(read_oneFileDir quietKey).2, readXorKey_toList (by decide)]
  simp only [Option.some.injEq, forall_eq']
  decide

end Bidx
