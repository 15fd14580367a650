import ComfirmDmarc.Base
import ComfirmDmarc.Lib.LittleEndian

/-!
# MailHandler -- `unzip`

The function of `mailhandler.c` that takes the first entry out of a ZIP file:
it copies the local file header into a record, trusts the four lengths in it,
and hands the compressed bytes to zlib behind a zlib header of its own. What it
reads of its argument and the sizes of its local arrays are recorded; zlib is a
parameter.
-/

namespace ComfirmDmarc.MailHandler

open CMemory

/-! ## The local file header -/

/-- The arrays of `zipfile`. -/
structure ZipFile where
  fileSignature : Bytes
  version : Bytes
  generalPurposeFlag : Bytes
  compressionMethod : Bytes
  lastModifiedTime : Bytes
  lastModifiedDate : Bytes
  crc : Bytes
  compressedSize : Bytes
  uncompressedSize : Bytes
  filenameLength : Bytes
  extraFieldLength : Bytes

def zipFileWidths : List Nat := [4, 2, 2, 2, 2, 2, 4, 4, 4, 2, 2]

/-- `memcpy(zip, zipdata, 30)`. -/
def ZipFile.read (zipdata : Bytes) : ZipFile :=
  let field := fun i => (cutFields zipFileWidths zipdata).getD i []
  ⟨field 0, field 1, field 2, field 3, field 4, field 5, field 6, field 7, field 8, field 9,
    field 10⟩

/-! ## The code -/

/-- What the code uses of zlib: whether `inflateInit` is anything but
`Z_STREAM_ERROR`, and the output of `inflate` for an input and the room for it. -/
structure Zlib where
  inflateInit : Bool
  inflate : Bytes → Nat → Bytes

/-- A read of `length` bytes of `zipdata`, as `memcpy` is told. -/
structure ZipRead where
  offset : Int
  length : Int
  deriving DecidableEq, Repr

inductive UnzipFault
  /-- an array of a negative number of bytes -/
  | arraySize
  /-- a copy behind an array -/
  | copy
  deriving DecidableEq, Repr

/-- A call of `unzip`: the reads of `zipdata` and the sizes of the local arrays
up to where it ends, and the bytes it copies to the block it returns, `none`
for `NULL`. -/
structure UnzipRun where
  reads : List ZipRead
  arrays : List Int
  result : Except UnzipFault (Option Bytes)

/-- `unzip`; `zipdata` goes on in memory as far as it is read. -/
def unzip (zlib : Zlib) (zipdata : Bytes) : UnzipRun :=
  let zip := ZipFile.read zipdata
  let header : ZipRead := ⟨0, 30⟩
  if zip.fileSignature ≠ [0x50, 0x4b, 0x03, 0x04] then ⟨[header], [], .ok none⟩
  else if zip.compressionMethod ≠ [0x08, 0x00] then ⟨[header], [], .ok none⟩
  else
    let filenameLen := ofLE zip.filenameLength
    let filename : ZipRead := ⟨30, filenameLen⟩
    let extraFieldLen := ofLE zip.extraFieldLength
    let comprLen := toInt (ofLE zip.compressedSize)
    let uncomprLen := toInt (ofLE zip.uncompressedSize)
    let zlibStreamLen := toInt (comprLen + 2)
    if zlibStreamLen < 0 then ⟨[header, filename], [zlibStreamLen], .error .arraySize⟩
    else
      let data : ZipRead := ⟨30 + filenameLen + extraFieldLen, toSize comprLen⟩
      if comprLen < 0 then ⟨[header, filename, data], [zlibStreamLen], .error .copy⟩
      else if uncomprLen < 0 then
        ⟨[header, filename, data], [zlibStreamLen, uncomprLen], .error .arraySize⟩
      else
        let compr := (zipdata.drop (30 + filenameLen + extraFieldLen)).take comprLen.toNat
        ⟨[header, filename, data], [zlibStreamLen, uncomprLen],
          .ok (if zlib.inflateInit then some (zlib.inflate (0x78 :: 0x9c :: compr) uncomprLen.toNat)
            else none)⟩

/-! ## Reads inside of the data -/

/-- **`unzip` reads only the data it was given**, `len` bytes, and its arrays
have a size. -/
def UnzipRun.Inside (run : UnzipRun) (len : Nat) : Prop :=
  (∀ r ∈ run.reads, ∀ i, r.offset ≤ i → i < r.offset + r.length → 0 ≤ i ∧ i < len) ∧
    ∀ n ∈ run.arrays, 0 ≤ n

/-- A read of some bytes, by its ends. -/
theorem inside_read_iff (offset length : Int) (h0 : 0 ≤ offset) (len : Nat) :
    (∀ i, offset ≤ i → i < offset + length → 0 ≤ i ∧ i < (len : Int)) ↔
      length ≤ 0 ∨ offset + length ≤ len := by
  constructor
  · intro h
    by_contra hbad
    have := h (offset + length - 1) (by omega) (by omega)
    omega
  · intro h i hlow hhigh
    omega

/-- The sizes that the `int`s of the code can hold. -/
theorem toInt_of_small {c : Nat} (h : c + 2 < 2 ^ 31) :
    toInt c = c ∧ toInt ((c : Int) + 2) = c + 2 :=
  ⟨toInt_of_range (by omega) (by omega), toInt_of_range (by omega) (by omega)⟩

/-- The others come out negative, or two below it as the size of the stream. -/
theorem toInt_of_large {c : Nat} (h : ¬c + 2 < 2 ^ 31) (h32 : c < 2 ^ 32) :
    toInt (toInt c + 2) < 0 ∨ (-2 ≤ toInt c ∧ toInt c < 0) := by
  obtain ⟨hclow, hchigh, hcdvd⟩ := toInt_spec c
  obtain ⟨hslow, hshigh, hsdvd⟩ := toInt_spec (toInt c + 2)
  omega

theorem toInt_neg_iff {u : Nat} (h32 : u < 2 ^ 32) : toInt u < 0 ↔ ¬u < 2 ^ 31 := by
  obtain ⟨hlow, hhigh, hdvd⟩ := toInt_spec u
  omega

theorem compressedSize_lt (zipdata : Bytes) :
    ofLE (ZipFile.read zipdata).compressedSize < 2 ^ 32 := by
  have hlen : (ZipFile.read zipdata).compressedSize.length ≤ 4 := cutFields_length_le zipFileWidths zipdata 7
  exact (ofLE_lt _).trans_le (Nat.pow_le_pow_right (by decide) hlen)

theorem uncompressedSize_lt (zipdata : Bytes) :
    ofLE (ZipFile.read zipdata).uncompressedSize < 2 ^ 32 := by
  have hlen : (ZipFile.read zipdata).uncompressedSize.length ≤ 4 := cutFields_length_le zipFileWidths zipdata 8
  exact (ofLE_lt _).trans_le (Nat.pow_le_pow_right (by decide) hlen)

/-- The entry that the header describes lies in `len` bytes, and its sizes fit
the `int`s of the code. -/
structure EntryFits (zip : ZipFile) (len : Nat) : Prop where
  filename : 30 + ofLE zip.filenameLength ≤ len
  compressed : ofLE zip.compressedSize + 2 < 2 ^ 31
  uncompressed : ofLE zip.uncompressedSize < 2 ^ 31
  data : ofLE zip.compressedSize = 0 ∨
    30 + ofLE zip.filenameLength + ofLE zip.extraFieldLength + ofLE zip.compressedSize ≤ len

/-- What is read of an entry whose sizes the code can hold. -/
theorem inside_entry_iff {c u fn ef len : Nat} (hc : c + 2 < 2 ^ 31) (h30 : 30 ≤ len) :
    UnzipRun.Inside ⟨[⟨0, 30⟩, ⟨30, fn⟩, ⟨30 + fn + ef, toSize c⟩], [(c : Int) + 2, u], .ok none⟩ len ↔
      30 + fn ≤ len ∧ (c = 0 ∨ 30 + fn + ef + c ≤ len) := by
  have hsize : toSize c = c := toSize_of_range (by omega) (by omega)
  have hheader := inside_read_iff 0 30 (by omega) len
  have hname := inside_read_iff 30 fn (by omega) len
  have hdata := inside_read_iff (30 + fn + ef) c (by omega) len
  simp only [UnzipRun.Inside, List.mem_cons, List.not_mem_nil, or_false, forall_eq_or_imp,
    forall_eq, hsize, hheader, hname, hdata]
  omega

/-- **The reads stay inside exactly if** the file is refused by its signature or
its compression method, or its lengths happen to be true. -/
theorem unzip_inside_iff (zlib : Zlib) (zipdata : Bytes) (h35 : 35 ≤ zipdata.length)
    (hint : zipdata.length < 2 ^ 31) :
    (unzip zlib zipdata).Inside zipdata.length ↔
      (ZipFile.read zipdata).fileSignature ≠ [0x50, 0x4b, 0x03, 0x04] ∨
      (ZipFile.read zipdata).compressionMethod ≠ [0x08, 0x00] ∨
      EntryFits (ZipFile.read zipdata) zipdata.length := by
  have hcompr := compressedSize_lt zipdata
  have huncompr := uncompressedSize_lt zipdata
  have hheader : ∀ i : Int, 0 ≤ i → i < 0 + 30 → 0 ≤ i ∧ i < (zipdata.length : Int) :=
    fun i h0 h => by omega
  rw [unzip]
  by_cases hsig : (ZipFile.read zipdata).fileSignature = [0x50, 0x4b, 0x03, 0x04]
  swap
  · simp only [hsig, ne_eq, not_false_eq_true, if_true, UnzipRun.Inside,
      List.forall_mem_singleton, true_or, iff_true]
    exact ⟨hheader, nofun⟩
  by_cases hmeth : (ZipFile.read zipdata).compressionMethod = [0x08, 0x00]
  swap
  · simp only [hsig, hmeth, ne_eq, not_true_eq_false, not_false_eq_true, if_false, if_true,
      UnzipRun.Inside, List.forall_mem_singleton, true_or, or_true, iff_true]
    exact ⟨hheader, nofun⟩
  simp only [hsig, hmeth, ne_eq, not_true_eq_false, if_false, false_or]
  generalize hzip : ZipFile.read zipdata = zip at hcompr huncompr
  have hfits : EntryFits zip zipdata.length ↔ ofLE zip.compressedSize + 2 < 2 ^ 31 ∧
      ofLE zip.uncompressedSize < 2 ^ 31 ∧ 30 + ofLE zip.filenameLength ≤ zipdata.length ∧
      (ofLE zip.compressedSize = 0 ∨ 30 + ofLE zip.filenameLength + ofLE zip.extraFieldLength +
        ofLE zip.compressedSize ≤ zipdata.length) :=
    ⟨fun h => ⟨h.compressed, h.uncompressed, h.filename, h.data⟩,
      fun ⟨h1, h2, h3, h4⟩ => ⟨h3, h1, h2, h4⟩⟩
  rw [hfits]
  generalize ofLE zip.compressedSize = c at hcompr
  generalize ofLE zip.uncompressedSize = u at huncompr
  generalize ofLE zip.filenameLength = fn
  generalize ofLE zip.extraFieldLength = ef
  generalize zipdata.length = len at h35 hint
  by_cases hc : c + 2 < 2 ^ 31
  · obtain ⟨hcint, hsint⟩ := toInt_of_small hc
    rw [hcint, hsint, if_neg (by omega), if_neg (by omega)]
    by_cases hu : u < 2 ^ 31
    · rw [if_neg (by rw [toInt_neg_iff huncompr]; omega),
        toInt_of_range (x := u) (by omega) (by omega)]
      refine (inside_entry_iff hc (by omega)).trans ?_
      simp only [hc, hu, true_and]
    · rw [if_pos ((toInt_neg_iff huncompr).mpr hu)]
      refine iff_of_false (fun h => ?_) fun h => hu h.2.1
      have hneg := h.2 (toInt u) (by simp)
      exact hu (by rw [← not_not (a := u < 2 ^ 31), ← toInt_neg_iff huncompr]; omega)
  · refine iff_of_false (fun h => ?_) fun h => hc h.1
    rcases toInt_of_large hc hcompr with hstream | ⟨hlow, hneg⟩
    · -- the stream has no size
      rw [if_pos hstream] at h
      have hpos := h.2 _ List.mem_cons_self
      omega
    · by_cases hstream : toInt (toInt c + 2) < 0
      · rw [if_pos hstream] at h
        have hpos := h.2 _ List.mem_cons_self
        omega
      · -- two sizes just below zero have a stream, and are copied as huge ones
        rw [if_neg hstream, if_pos hneg] at h
        have hread := h.1 ⟨30 + fn + ef, toSize (toInt c)⟩ (by simp)
        have hend := (inside_read_iff (30 + fn + ef) (toSize (toInt c)) (by omega) len).mp hread
        rw [toSize] at hend
        omega

/-! ## The entry of a ZIP file -/

/-- What the code relies on of zlib, for the raw streams `raw` that stand for a
content `x`: `Deflated raw x`. -/
structure Zlib.Correct (zlib : Zlib) (Deflated : Bytes → Bytes → Prop) : Prop where
  init : zlib.inflateInit = true
  decodes : ∀ raw x room, Deflated raw x → zlib.inflate (0x78 :: 0x9c :: raw) room = x.take room
  bounded : ∀ input room, (zlib.inflate input room).length ≤ room

/-- The first entry of a ZIP file, compressed with deflate, and what follows it:
a data descriptor, more entries, the central directory. -/
structure ZipEntry (Deflated : Bytes → Bytes → Prop) where
  version : Vector UInt8 2
  flags : Vector UInt8 2
  time : Vector UInt8 2
  date : Vector UInt8 2
  crc : Vector UInt8 4
  name : Bytes
  extra : Bytes
  raw : Bytes
  content : Bytes
  rest : Bytes
  name_lt : name.length < 256 ^ 2
  extra_lt : extra.length < 256 ^ 2
  raw_lt : raw.length < 256 ^ 4
  content_lt : content.length < 256 ^ 4
  deflated : Deflated raw content
  nulFree : (0 : UInt8) ∉ content

namespace ZipEntry

variable {Deflated : Bytes → Bytes → Prop} (z : ZipEntry Deflated)

/-- Bit 3 of the general purpose flag: the sizes stand in a data descriptor. -/
def descriptor : Bool := z.flags[0] &&& 8 != 0

/-- The compressed size in the local header. -/
def headerCompressed : Nat := if z.descriptor then 0 else z.raw.length

/-- The uncompressed size in the local header. -/
def headerUncompressed : Nat := if z.descriptor then 0 else z.content.length

def header : List Bytes :=
  [[0x50, 0x4b, 0x03, 0x04], z.version.toList, z.flags.toList, [0x08, 0x00], z.time.toList,
    z.date.toList, z.crc.toList, toLE 4 z.headerCompressed, toLE 4 z.headerUncompressed,
    toLE 2 z.name.length, toLE 2 z.extra.length]

/-- The bytes of the file. -/
def render : Bytes := z.header.flatten ++ (z.name ++ (z.extra ++ (z.raw ++ z.rest)))

theorem header_widths : z.header.map List.length = zipFileWidths := by
  simp [header, zipFileWidths]

theorem read_render :
    ZipFile.read z.render =
      ⟨[0x50, 0x4b, 0x03, 0x04], z.version.toList, z.flags.toList, [0x08, 0x00], z.time.toList,
        z.date.toList, z.crc.toList, toLE 4 z.headerCompressed, toLE 4 z.headerUncompressed,
        toLE 2 z.name.length, toLE 2 z.extra.length⟩ := by
  have hcut : cutFields zipFileWidths z.render = z.header := by
    rw [← z.header_widths]
    exact cutFields_flatten z.header _
  simp only [ZipFile.read, hcut]
  rfl

/-- The compressed bytes lie behind the name and the extra field. -/
theorem drop_render : z.render.drop (30 + z.name.length + z.extra.length) = z.raw ++ z.rest := by
  have hlen : z.header.flatten.length = 30 := by
    rw [List.length_flatten, z.header_widths]
    rfl
  rw [render, ← List.append_assoc, ← List.append_assoc, List.drop_left']
  rw [List.length_append, List.length_append, hlen]

theorem headerCompressed_lt : z.headerCompressed < 256 ^ 4 := by
  rw [headerCompressed]
  split
  · decide
  · exact z.raw_lt

theorem headerUncompressed_lt : z.headerUncompressed < 256 ^ 4 := by
  rw [headerUncompressed]
  split
  · decide
  · exact z.content_lt

/-- **`unzip` on the file**, when the sizes in its header fit the `int`s. -/
theorem unzip_render (zlib : Zlib) (hc : z.headerCompressed + 2 < 2 ^ 31)
    (hu : z.headerUncompressed < 2 ^ 31) :
    (unzip zlib z.render).result =
      .ok (if zlib.inflateInit then
        some (zlib.inflate (0x78 :: 0x9c :: (z.raw ++ z.rest).take z.headerCompressed)
          z.headerUncompressed)
      else none) := by
  obtain ⟨hcint, hsint⟩ := toInt_of_small hc
  have huint : toInt z.headerUncompressed = z.headerUncompressed :=
    toInt_of_range (by omega) (by omega)
  simp only [unzip, z.read_render, ne_eq, not_true_eq_false, if_false,
    ofLE_toLE z.headerCompressed_lt, ofLE_toLE z.headerUncompressed_lt, ofLE_toLE z.name_lt,
    ofLE_toLE z.extra_lt, hcint, hsint, huint]
  rw [if_neg (by omega), if_neg (by omega), if_neg (by omega), Int.toNat_natCast, Int.toNat_natCast,
    z.drop_render]

/-- Sizes that do not fit end in a fault. -/
theorem unzip_render_fault (zlib : Zlib)
    (h : ¬(z.headerCompressed + 2 < 2 ^ 31 ∧ z.headerUncompressed < 2 ^ 31)) (out : Option Bytes) :
    (unzip zlib z.render).result ≠ .ok out := by
  have hcompr : z.headerCompressed < 2 ^ 32 := z.headerCompressed_lt
  have huncompr : z.headerUncompressed < 2 ^ 32 := z.headerUncompressed_lt
  simp only [unzip, z.read_render, ne_eq, not_true_eq_false, if_false,
    ofLE_toLE z.headerCompressed_lt, ofLE_toLE z.headerUncompressed_lt, ofLE_toLE z.name_lt,
    ofLE_toLE z.extra_lt]
  by_cases hc : z.headerCompressed + 2 < 2 ^ 31
  · obtain ⟨hcint, hsint⟩ := toInt_of_small hc
    have hu := (toInt_neg_iff huncompr).mpr fun hu => h ⟨hc, hu⟩
    rw [hcint, hsint, if_neg (by omega), if_neg (by omega), if_pos hu]
    nofun
  · rcases toInt_of_large hc hcompr with hstream | ⟨-, hneg⟩
    · rw [if_pos hstream]
      nofun
    · by_cases hstream : toInt (toInt z.headerCompressed + 2) < 0
      · rw [if_pos hstream]
        nofun
      · rw [if_neg hstream, if_pos hneg]
        nofun

end ZipEntry

/-! ## What the caller reads -/

/-- The string at the address that `unzip` returned, for the memory behind the
copied bytes: the last byte of the block, and what lies behind it. -/
def UnzipRun.document (run : UnzipRun) (behind : Bytes) : Option Bytes :=
  match run.result with
  | .ok (some out) => some (str (out ++ behind))
  | .ok none => none
  | .error _ => none

theorem str_eq_nil_iff (last : UInt8) (more : Bytes) : str (last :: more) = [] ↔ last = 0 := by
  by_cases h : last = 0
  · simp [str, h]
  · simp [str, h]

/-- When the string is the content: the byte behind it happens to be NUL, or, of
an entry with a data descriptor, the memory happens to hold the content. -/
def ContentDelimited {Deflated : Bytes → Bytes → Prop} (z : ZipEntry Deflated) (last : UInt8)
    (more : Bytes) : Prop :=
  if z.descriptor then str (last :: more) = z.content
  else z.raw.length + 2 < 2 ^ 31 ∧ z.content.length < 2 ^ 31 ∧ last = 0

theorem unzip_document {Deflated : Bytes → Bytes → Prop} {zlib : Zlib}
    (hz : zlib.Correct Deflated) (z : ZipEntry Deflated) (last : UInt8) (more : Bytes) :
    (unzip zlib z.render).document (last :: more) = some z.content ↔
      ContentDelimited z last more := by
  by_cases hfit : z.headerCompressed + 2 < 2 ^ 31 ∧ z.headerUncompressed < 2 ^ 31
  · rw [UnzipRun.document, z.unzip_render zlib hfit.1 hfit.2, hz.init, if_pos rfl,
      ContentDelimited]
    simp only [Option.some.injEq]
    by_cases hd : z.descriptor = true
    · -- no room, no output
      have hzero : z.headerUncompressed = 0 := by rw [ZipEntry.headerUncompressed, if_pos hd]
      have hnone : ∀ input, zlib.inflate input z.headerUncompressed = [] := by
        intro input
        have := hz.bounded input z.headerUncompressed
        rw [hzero] at this ⊢
        exact List.length_eq_zero_iff.mp (Nat.le_zero.mp this)
      rw [if_pos hd, hnone, List.nil_append]
    · have hc : z.headerCompressed = z.raw.length := by rw [ZipEntry.headerCompressed, if_neg hd]
      have hu : z.headerUncompressed = z.content.length := by
        rw [ZipEntry.headerUncompressed, if_neg hd]
      rw [hc, hu] at hfit
      rw [if_neg hd, hc, hu, List.take_left' rfl, hz.decodes _ _ _ z.deflated, List.take_length,
        str_append z.nulFree, List.append_right_eq_self, str_eq_nil_iff]
      simp only [hfit.1, hfit.2, true_and]
  · have hnone : (unzip zlib z.render).document (last :: more) = none := by
      rw [UnzipRun.document]
      split
      · next out hout => exact absurd hout (z.unzip_render_fault zlib hfit _)
      · rfl
      · rfl
    rw [hnone, ContentDelimited]
    refine iff_of_false nofun fun h => hfit ?_
    rw [ZipEntry.headerCompressed, ZipEntry.headerUncompressed]
    by_cases hd : z.descriptor = true
    · rw [if_pos hd, if_pos hd]
      decide
    · rw [if_neg hd] at h
      rw [if_neg hd, if_neg hd]
      exact ⟨h.1, h.2.1⟩

/-- **The string is the content as the memory happens to be**, and for no entry
whatever the memory was before. -/
theorem unzip_content_iff {Deflated : Bytes → Bytes → Prop} (zlib : Zlib)
    (hz : zlib.Correct Deflated) (z : ZipEntry Deflated) :
    (∀ last more, (unzip zlib z.render).document (last :: more) = some z.content ↔
      ContentDelimited z last more) ∧
    ¬∀ last more, (unzip zlib z.render).document (last :: more) = some z.content := by
  refine ⟨unzip_document hz z, fun hall => ?_⟩
  have hone := (unzip_document hz z 1 []).mp (hall 1 [])
  have hzero := (unzip_document hz z 0 []).mp (hall 0 [])
  rw [ContentDelimited] at hone hzero
  split at hone
  · rename_i hd
    -- two memories hold different strings
    rw [if_pos hd] at hzero
    exact absurd (hone.trans hzero.symm) (by decide)
  · exact absurd hone.2.2 (by decide)

section Examples

/-- A zlib that decodes streams of one stored block. -/
def storedZlib : Zlib where
  inflateInit := true
  inflate := fun input room =>
    match input with
    | 0x78 :: 0x9c :: 1 :: l0 :: l1 :: _ :: _ :: data => (data.take (ofLE [l0, l1])).take room
    | _ => []

/-- A raw stream of one stored block. -/
def StoredBlock (raw x : Bytes) : Prop :=
  x.length < 256 ^ 2 ∧ raw = 1 :: toLE 2 x.length ++ toLE 2 (65535 - x.length) ++ x

theorem storedZlib_correct : storedZlib.Correct StoredBlock where
  init := rfl
  decodes := by
    rintro raw x room ⟨hlen, rfl⟩
    have hread := ofLE_toLE hlen
    simp only [toLE, List.range_succ, List.range_zero, List.nil_append, List.map_cons, List.map_nil,
      List.cons_append] at hread ⊢
    simp only [storedZlib, hread, List.take_length]
  bounded := by
    intro input room
    simp only [storedZlib]
    split
    · exact List.length_take_le ..
    · exact Nat.zero_le _

/-- The entry `a` with the content `hi`, stored. -/
def hiEntry : ZipEntry StoredBlock where
  version := #v[20, 0]
  flags := #v[0, 0]
  time := #v[0, 0]
  date := #v[0, 0]
  crc := #v[0xac, 0x2a, 0x93, 0xd8]
  name := [97]
  extra := []
  raw := 1 :: toLE 2 2 ++ toLE 2 (65535 - 2) ++ [104, 105]
  content := [104, 105]
  rest := []
  name_lt := by decide
  extra_lt := by decide
  raw_lt := by decide
  content_lt := by decide
  deflated := ⟨by decide, rfl⟩
  nulFree := by decide

theorem unzip_inside_iff_hi :
    (unzip storedZlib hiEntry.render).Inside hiEntry.render.length ↔
      (ZipFile.read hiEntry.render).fileSignature ≠ [0x50, 0x4b, 0x03, 0x04] ∨
      (ZipFile.read hiEntry.render).compressionMethod ≠ [0x08, 0x00] ∨
      EntryFits (ZipFile.read hiEntry.render) hiEntry.render.length :=
  unzip_inside_iff storedZlib hiEntry.render (by decide) (by decide)

/-- A file of 40 bytes whose header says a name of 65535. -/
def longNameFile : Bytes :=
  [0x50, 0x4b, 0x03, 0x04, 20, 0, 0, 0, 0x08, 0x00, 0, 0, 0, 0, 0, 0, 0, 0, 4, 0, 0, 0, 4, 0, 0, 0,
    0xff, 0xff, 0, 0] ++ List.replicate 10 0

theorem longName_read_outside :
    longNameFile.length = 40 ∧ ¬(unzip storedZlib longNameFile).Inside longNameFile.length := by
  refine ⟨by decide, fun h => ?_⟩
  have hread := h.1 ⟨30, 65535⟩ (by decide) 40 (by decide) (by decide)
  exact absurd hread.2 (by decide)

theorem unzip_content_iff_hi :
    (∀ last more, (unzip storedZlib hiEntry.render).document (last :: more) = some [104, 105] ↔
      ContentDelimited hiEntry last more) ∧
    ¬∀ last more, (unzip storedZlib hiEntry.render).document (last :: more) = some [104, 105] :=
  unzip_content_iff storedZlib storedZlib_correct hiEntry

/-- Over memory that holds `A`, the content `hi` is read as `hiA`. -/
theorem content_not_delimited :
    (unzip storedZlib hiEntry.render).document [65, 0] = some [104, 105, 65] ∧
      ¬∀ last more, (unzip storedZlib hiEntry.render).document (last :: more) =
        some hiEntry.content := by
  have hread : (unzip storedZlib hiEntry.render).document [65, 0] = some [104, 105, 65] := by decide
  refine ⟨hread, fun h => ?_⟩
  have hhi := h 65 [0]
  rw [hread] at hhi
  exact absurd hhi (by decide)

end Examples

end ComfirmDmarc.MailHandler
