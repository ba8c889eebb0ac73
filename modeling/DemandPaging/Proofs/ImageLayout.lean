import DemandPaging.Executable.Image
import DemandPaging.Proofs.Readings

/-! # The layout of ELF images

Which bytes are the headers of a 32-bit ELF file, where each field is, and what is reported of bytes
that are not.
-/
namespace DemandPaging

/-- The number in the byte order that the file declares. -/
def Image.orderOf (b : List UInt8) : ByteOrder :=
  if ByteOrder.little.number b 5 1 = 2 then .big else .little

/-- The number in `width` bytes of a file, in the byte order that the file declares. -/
def Image.field (b : List UInt8) (start width : Nat) : Nat :=
  (orderOf b).number b start width

/-- The start of a program header. -/
def Image.entryStart (b : List UInt8) (i : Nat) : Nat := field b 28 4 + i * field b 42 2

def ObjectKind.code : ObjectKind → Nat
  | relocatable => 1
  | executable => 2
  | shared => 3
  | core => 4

def Architecture.code : Architecture → Nat
  | generic => 0x00
  | sparc => 0x02
  | x86 => 0x03
  | mips => 0x08
  | powerPC => 0x14
  | arm => 0x28
  | ia64 => 0x32
  | x86_64 => 0x3E
  | arm64 => 0xB7
  | riscV => 0xF3

/-- The numbers that stand for a kind of segment. -/
def SegmentKind.HasCode (n : Nat) : SegmentKind → Prop
  | ignored => n = 0
  | load => n = 1
  | dynamic => n = 2
  | interpreter => n = 3
  | note => n = 4
  | osSpecific code => 0x60000000 ≤ n ∧ n = code.toNat

theorem ObjectKind.ofCode?_eq_some {code : UInt16} {kind : ObjectKind} :
    ofCode? code = some kind ↔ kind.code = code.toNat := by
  unfold ofCode?
  generalize code.toNat = n
  split <;> cases kind <;> grind [ObjectKind.code]

theorem ObjectKind.isSome_ofCode? {code : UInt16} :
    (ofCode? code).isSome ↔ code.toNat ∈ [1, 2, 3, 4] := by
  unfold ofCode?
  generalize code.toNat = n
  split <;> simp_all

theorem Architecture.ofCode?_eq_some {code : UInt16} {a : Architecture} :
    ofCode? code = some a ↔ a.code = code.toNat := by
  unfold ofCode?
  generalize code.toNat = n
  split <;> cases a <;> grind [Architecture.code]

theorem Architecture.isSome_ofCode? {code : UInt16} : (ofCode? code).isSome ↔
    code.toNat ∈ [0x00, 0x02, 0x03, 0x08, 0x14, 0x28, 0x32, 0x3E, 0xB7, 0xF3] := by
  unfold ofCode?
  generalize code.toNat = n
  split <;> simp_all

theorem SegmentKind.ofCode?_eq_some {code : UInt32} {kind : SegmentKind} :
    ofCode? code = some kind ↔ kind.HasCode code.toNat := by
  unfold ofCode?
  split <;> cases kind <;> grind [HasCode, UInt32.toNat_inj]

theorem SegmentKind.isSome_ofCode? {code : UInt32} :
    (ofCode? code).isSome ↔ code.toNat ≤ 4 ∨ 0x60000000 ≤ code.toNat := by
  unfold ofCode?
  generalize code.toNat = n
  split <;> grind

theorem ByteOrder.ofCode?_eq_some {code : UInt8} {order : ByteOrder} :
    ofCode? code = some order ↔
      code.toNat = 1 ∧ order = little ∨ code.toNat = 2 ∧ order = big := by
  unfold ofCode?
  split <;> grind

theorem ByteOrder.isSome_ofCode? {code : UInt8} :
    (ofCode? code).isSome ↔ code.toNat ∈ [1, 2] := by
  unfold ofCode?
  split <;> grind

/-- A single byte spells the same number in both orders. -/
theorem ByteOrder.number_one (order order' : ByteOrder) (b : List UInt8) (start : Nat) :
    order.number b start 1 = order'.number b start 1 := by
  cases order <;> cases order' <;> cases h : b.drop start <;> simp [number, value, slice, h]

theorem ByteOrder.number_of_get {order : ByteOrder} {b : List UInt8} {start : Nat} {a : UInt8}
    (h : b[start]? = some a) : order.number b start 1 = a.toNat := by
  obtain ⟨hlt, rfl⟩ := List.getElem?_eq_some_iff.mp h
  rw [number, slice, List.drop_eq_getElem_cons hlt, List.take_succ_cons, List.take_zero]
  cases order <;> simp [value]

/-- Every field of a file header is the number at its offset. -/
structure FileHeader.At (h : FileHeader) (b : List UInt8) : Prop where
  byteOrder : h.byteOrder = Image.orderOf b
  headerVersion : h.headerVersion.toNat = Image.field b 6 1
  abi : h.abi.toNat = Image.field b 7 1
  kind : h.kind.code = Image.field b 16 2
  architecture : h.architecture.code = Image.field b 18 2
  version : h.version.toNat = Image.field b 20 4
  entry : h.entry.toNat = Image.field b 24 4
  programHeadersOffset : h.programHeadersOffset.toNat = Image.field b 28 4
  sectionHeadersOffset : h.sectionHeadersOffset.toNat = Image.field b 32 4
  flags : h.flags.toNat = Image.field b 36 4
  headerSize : h.headerSize.toNat = Image.field b 40 2
  programHeaderSize : h.programHeaderSize.toNat = Image.field b 42 2
  programHeaderCount : h.programHeaderCount.toNat = Image.field b 44 2
  sectionHeaderSize : h.sectionHeaderSize.toNat = Image.field b 46 2
  sectionHeaderCount : h.sectionHeaderCount.toNat = Image.field b 48 2
  sectionHeaderIndex : h.sectionHeaderIndex.toNat = Image.field b 50 2

/-- Every field of a program header is the number at its offset from `start`. -/
structure ProgramHeader.At (h : ProgramHeader) (b : List UInt8) (start : Nat) : Prop where
  kind : h.kind.HasCode (Image.field b start 4)
  fileOffset : h.fileOffset.toNat = Image.field b (start + 4) 4
  virtualAddress : h.virtualAddress.toNat = Image.field b (start + 8) 4
  physicalAddress : h.physicalAddress.toNat = Image.field b (start + 12) 4
  fileSize : h.fileSize.toNat = Image.field b (start + 16) 4
  memorySize : h.memorySize.toNat = Image.field b (start + 20) 4
  executable : h.executable = (Image.field b (start + 24) 4).testBit 0
  writable : h.writable = (Image.field b (start + 24) 4).testBit 1
  readable : h.readable = (Image.field b (start + 24) 4).testBit 2
  alignment : h.alignment.toNat = Image.field b (start + 28) 4

/-- What the reader of file headers checks, in its order. -/
def FileHeader.checks (b : List UInt8) : List Check :=
  [⟨slice b 0 4 = magic, .tag, 0⟩,
    ⟨slice b 4 1 = class32, .tag, 4⟩,
    .fits b 5 1, ⟨ByteOrder.little.number b 5 1 ∈ [1, 2], .value, 5⟩,
    .fits b 6 1, .fits b 7 1, .fits b 8 8,
    .fits b 16 2, ⟨Image.field b 16 2 ∈ [1, 2, 3, 4], .value, 16⟩,
    .fits b 18 2, ⟨Image.field b 18 2 ∈
      [0x00, 0x02, 0x03, 0x08, 0x14, 0x28, 0x32, 0x3E, 0xB7, 0xF3], .value, 18⟩,
    .fits b 20 4, .fits b 24 4, .fits b 28 4, .fits b 32 4, .fits b 36 4,
    .fits b 40 2, .fits b 42 2, .fits b 44 2, .fits b 46 2, .fits b 48 2, .fits b 50 2]

/-- What the reader of program headers checks of the one at `start`, in its order. -/
def ProgramHeader.checks (b : List UInt8) (start : Nat) : List Check :=
  [.fits b start 4, ⟨Image.field b start 4 ≤ 4 ∨ 0x60000000 ≤ Image.field b start 4, .value, start⟩,
    .fits b (start + 4) 4, .fits b (start + 8) 4, .fits b (start + 12) 4, .fits b (start + 16) 4,
    .fits b (start + 20) 4, .fits b (start + 24) 4, .fits b (start + 28) 4]

/-- What the reader of images checks, in its order. The place of the table counts from the start of
the file, and the size of an entry from the start of the entry. -/
def Image.checks (b : List UInt8) : List Check :=
  FileHeader.checks b ++ .fits b 0 (field b 28 4) ::
    (List.range (field b 44 2)).flatMap fun i =>
      ProgramHeader.checks b (entryStart b i) ++ [.fits b (entryStart b i) (field b 42 2)]

/-- The byte order that has been read is the one that the file declares. -/
theorem Image.orderOf_eq {b : List UInt8} {code : UInt8} {order : ByteOrder}
    (hcode : code.toNat = ByteOrder.little.number b 5 1)
    (h : ByteOrder.ofCode? code = some order) : orderOf b = order := by
  rw [orderOf, ← hcode]
  obtain ⟨hcode, rfl⟩ | ⟨hcode, rfl⟩ := ByteOrder.ofCode?_eq_some.mp h <;> simp [hcode]

theorem Image.half_parses (b : List UInt8) (start : Nat) :
    Parses b start (Reader.half (orderOf b)) [.fits b start 2]
      (fun a => a.toNat = field b start 2) (start + 2) := .half _ start

theorem Image.word_parses (b : List UInt8) (start : Nat) :
    Parses b start (Reader.word (orderOf b)) [.fits b start 4]
      (fun a => a.toNat = field b start 4) (start + 4) := .word _ start

theorem FileHeader.read_parses (b : List UInt8) :
    Parses b 0 FileHeader.read (FileHeader.checks b) (·.At b) 52 := by
  refine (Parses.tag 0 FileHeader.magic).bind fun _ _ => ?_
  refine (Parses.tag 4 FileHeader.class32).bind fun _ _ => ?_
  refine ((Parses.byte 5).oneOf fun a ha => ha ▸ ByteOrder.isSome_ofCode?.symm).bind ?_
  rintro order ⟨code, hcode, horder⟩
  obtain rfl := Image.orderOf_eq hcode horder
  refine (Parses.byte 6).bind fun headerVersion hheaderVersion => ?_
  refine (Parses.byte 7).bind fun abi habi => ?_
  refine (Parses.skip 8 8).bind fun _ _ => ?_
  refine ((Image.half_parses b 16).oneOf fun a ha => ha ▸ ObjectKind.isSome_ofCode?.symm).bind ?_
  rintro kind ⟨kindCode, hkindCode, hkind⟩
  refine ((Image.half_parses b 18).oneOf fun a ha => ha ▸ Architecture.isSome_ofCode?.symm).bind ?_
  rintro architecture ⟨architectureCode, harchitectureCode, harchitecture⟩
  refine (Image.word_parses b 20).bind fun version hversion => ?_
  refine (Image.word_parses b 24).bind fun entry hentry => ?_
  refine (Image.word_parses b 28).bind fun programHeadersOffset hprogramHeadersOffset => ?_
  refine (Image.word_parses b 32).bind fun sectionHeadersOffset hsectionHeadersOffset => ?_
  refine (Image.word_parses b 36).bind fun flags hflags => ?_
  refine (Image.half_parses b 40).bind fun headerSize hheaderSize => ?_
  refine (Image.half_parses b 42).bind fun programHeaderSize hprogramHeaderSize => ?_
  refine (Image.half_parses b 44).bind fun programHeaderCount hprogramHeaderCount => ?_
  refine (Image.half_parses b 46).bind fun sectionHeaderSize hsectionHeaderSize => ?_
  refine (Image.half_parses b 48).bind fun sectionHeaderCount hsectionHeaderCount => ?_
  refine (Image.half_parses b 50).bind fun sectionHeaderIndex hsectionHeaderIndex => ?_
  exact .pure {
    byteOrder := rfl
    headerVersion := hheaderVersion.trans (ByteOrder.number_one ..)
    abi := habi.trans (ByteOrder.number_one ..)
    kind := (ObjectKind.ofCode?_eq_some.mp hkind).trans hkindCode
    architecture := (Architecture.ofCode?_eq_some.mp harchitecture).trans harchitectureCode
    version := hversion
    entry := hentry
    programHeadersOffset := hprogramHeadersOffset
    sectionHeadersOffset := hsectionHeadersOffset
    flags := hflags
    headerSize := hheaderSize
    programHeaderSize := hprogramHeaderSize
    programHeaderCount := hprogramHeaderCount
    sectionHeaderSize := hsectionHeaderSize
    sectionHeaderCount := hsectionHeaderCount
    sectionHeaderIndex := hsectionHeaderIndex }

theorem ProgramHeader.read_parses (b : List UInt8) (start : Nat) :
    Parses b start (ProgramHeader.read (Image.orderOf b)) (ProgramHeader.checks b start)
      (·.At b start) (start + 32) := by
  refine ((Image.word_parses b start).oneOf fun a ha => ha ▸ SegmentKind.isSome_ofCode?.symm).bind ?_
  rintro kind ⟨code, hcode, hkind⟩
  refine (Image.word_parses b (start + 4)).bind fun fileOffset hfileOffset => ?_
  refine (Image.word_parses b (start + 8)).bind fun virtualAddress hvirtualAddress => ?_
  refine (Image.word_parses b (start + 12)).bind fun physicalAddress hphysicalAddress => ?_
  refine (Image.word_parses b (start + 16)).bind fun fileSize hfileSize => ?_
  refine (Image.word_parses b (start + 20)).bind fun memorySize hmemorySize => ?_
  refine (Image.word_parses b (start + 24)).bind fun flags hflags => ?_
  refine (Image.word_parses b (start + 28)).bind fun alignment halignment => ?_
  exact .pure {
    kind := hcode ▸ SegmentKind.ofCode?_eq_some.mp hkind
    fileOffset := hfileOffset
    virtualAddress := hvirtualAddress
    physicalAddress := hphysicalAddress
    fileSize := hfileSize
    memorySize := hmemorySize
    executable := congrArg (Nat.testBit · 0) hflags
    writable := congrArg (Nat.testBit · 1) hflags
    readable := congrArg (Nat.testBit · 2) hflags
    alignment := halignment }

theorem ProgramHeader.readTable_succ (order : ByteOrder) (stride : Nat)
    (found : List ProgramHeader) (count : Nat) (input : List UInt8) :
    readTable order stride found (count + 1) input = ProgramHeader.read order input >>= fun r =>
      Reader.skip stride input >>= fun r' => readTable order stride (r.1 :: found) count r'.2 := by
  rw [readTable]
  rcases ProgramHeader.read order input with e | ⟨h, rest⟩
  · rfl
  · rcases Reader.skip stride input with e | ⟨-, rest'⟩ <;> rfl

/-- The program headers that are found are those of the table, one after the other. -/
theorem ProgramHeader.readTable_judged {b : List UInt8} {start stride count : Nat}
    (hstart : start ≤ b.length) (found : List ProgramHeader) :
    Judged b
      ((List.range count).flatMap fun i =>
        ProgramHeader.checks b (start + i * stride) ++ [.fits b (start + i * stride) stride])
      (fun hs => ∃ more : List ProgramHeader, hs = found.reverse ++ more ∧ more.length = count ∧
        ∀ i (h : ProgramHeader), more[i]? = some h → h.At b (start + i * stride))
      (readTable (Image.orderOf b) stride found count (b.drop start)) := by
  induction count generalizing start found with
  | zero => exact .ok ⟨[], by simp, rfl, by simp⟩
  | succ count ih =>
    have hnext : ∀ i, start + (i + 1) * stride = start + stride + i * stride := by
      intro i
      rw [Nat.succ_mul]
      omega
    rw [readTable_succ, List.range_succ_eq_map, List.flatMap_cons, List.flatMap_map,
      List.append_assoc]
    simp only [Nat.zero_mul, Nat.add_zero, Nat.succ_eq_add_one, hnext]
    refine (ProgramHeader.read_parses b start hstart).bind ?_
    rintro ⟨h, rest⟩ ⟨hat, -, -⟩
    refine (Parses.skip start stride hstart).bind ?_
    rintro ⟨-, rest'⟩ ⟨-, rfl, hlen⟩
    refine (ih hlen (h :: found)).imp ?_
    rintro hs ⟨more, rfl, rfl, hmore⟩
    refine ⟨h :: more, by simp, rfl, ?_⟩
    rintro (_ | i) h' hget
    · obtain rfl := Option.some.inj hget
      simpa using hat
    · rw [hnext]
      exact hmore i h' hget

/-- An image as it lies in a file. -/
structure Image.At (image : Image) (b : List UInt8) : Prop where
  header : image.header.At b
  count : image.programHeaders.length = field b 44 2
  programHeaders : ∀ i (h : ProgramHeader), image.programHeaders[i]? = some h →
    h.At b (entryStart b i)

/-- The image is judged by the header, then by the place of the table, then by its entries. -/
theorem Image.read_judged (b : List UInt8) :
    Judged b (checks b) (fun r => r.1.At b ∧ r.2 = b.drop 52) (Image.read b) := by
  refine (FileHeader.read_parses b (Nat.zero_le _)).bind ?_
  rintro ⟨header, rest⟩ ⟨hat, rfl, -⟩
  change Judged b _ _ (Reader.skip header.programHeadersOffset.toNat b >>= fun r =>
    ProgramHeader.readTable header.byteOrder header.programHeaderSize.toNat []
      header.programHeaderCount.toNat r.2 >>= fun hs => .ok (Image.mk header hs, b.drop 52))
  rw [hat.byteOrder, hat.programHeadersOffset, hat.programHeaderSize, hat.programHeaderCount]
  refine (Parses.skip 0 (field b 28 4) (Nat.zero_le _)).bind ?_
  rintro ⟨-, table⟩ ⟨-, rfl, hlen⟩
  rw [Nat.zero_add] at hlen ⊢
  refine (ProgramHeader.readTable_judged hlen []).bind_ok ?_
  rintro hs ⟨more, rfl, hcount, hmore⟩
  exact ⟨⟨hat, hcount, hmore⟩, rfl⟩

/-- The bytes of an image. -/
structure Image.WellFormed (b : List UInt8) : Prop where
  magic : [0x7f, 0x45, 0x4c, 0x46, 1] <+: b
  order : b[5]? = some 1 ∨ b[5]? = some 2
  length : 52 ≤ b.length
  kind : field b 16 2 ∈ [1, 2, 3, 4]
  architecture : field b 18 2 ∈ [0x00, 0x02, 0x03, 0x08, 0x14, 0x28, 0x32, 0x3E, 0xB7, 0xF3]
  table : field b 28 4 ≤ b.length
  entries : ∀ i < field b 44 2, entryStart b i + 32 ≤ b.length ∧
    (field b (entryStart b i) 4 ≤ 4 ∨ 0x60000000 ≤ field b (entryStart b i) 4) ∧
    entryStart b i + field b 42 2 ≤ b.length

theorem ProgramHeader.checks_iff {b : List UInt8} {start : Nat} :
    (∀ c ∈ ProgramHeader.checks b start, c.holds) ↔ start + 32 ≤ b.length ∧
      (Image.field b start 4 ≤ 4 ∨ 0x60000000 ≤ Image.field b start 4) := by
  simp only [ProgramHeader.checks, Check.fits, List.forall_mem_cons, List.not_mem_nil,
    IsEmpty.forall_iff, implies_true, and_true]
  omega

theorem FileHeader.checks_iff {b : List UInt8} : (∀ c ∈ FileHeader.checks b, c.holds) ↔
    [0x7f, 0x45, 0x4c, 0x46, 1] <+: b ∧ (b[5]? = some 1 ∨ b[5]? = some 2) ∧ 52 ≤ b.length ∧
      Image.field b 16 2 ∈ [1, 2, 3, 4] ∧ Image.field b 18 2 ∈
        [0x00, 0x02, 0x03, 0x08, 0x14, 0x28, 0x32, 0x3E, 0xB7, 0xF3] := by
  have hmagic : slice b 0 4 = magic ∧ slice b 4 1 = class32 ↔
      [0x7f, 0x45, 0x4c, 0x46, 1] <+: b := by
    rcases b with _ | ⟨b₀, _ | ⟨b₁, _ | ⟨b₂, _ | ⟨b₃, _ | ⟨b₄, b⟩⟩⟩⟩⟩ <;>
      simp [slice, magic, class32, and_assoc]
    grind
  have horder : 6 ≤ b.length →
      (ByteOrder.little.number b 5 1 ∈ [1, 2] ↔ b[5]? = some 1 ∨ b[5]? = some 2) := by
    intro hlen
    have hget := List.getElem?_eq_getElem (show 5 < b.length from hlen)
    rw [ByteOrder.number_of_get hget, hget]
    simp [← UInt8.toNat_inj]
  simp only [checks, Check.fits, List.forall_mem_cons, List.not_mem_nil, IsEmpty.forall_iff,
    implies_true, and_true, ← hmagic, and_assoc]
  constructor
  · intro h
    have hlen : 52 ≤ b.length := by omega
    exact ⟨h.1, h.2.1, (horder (by omega)).mp h.2.2.2.1, hlen, by tauto⟩
  · rintro ⟨h1, h2, h3, hlen, hkind, harch⟩
    have := (horder (by omega)).mpr h3
    refine ⟨h1, h2, ?_⟩
    simp only [hkind, harch, this, true_and]
    omega

theorem Image.checks_iff {b : List UInt8} : (∀ c ∈ checks b, c.holds) ↔ WellFormed b := by
  have hentry : ∀ i, (∀ c ∈ ProgramHeader.checks b (entryStart b i) ++
        [.fits b (entryStart b i) (field b 42 2)], c.holds) ↔
      entryStart b i + 32 ≤ b.length ∧
        (field b (entryStart b i) 4 ≤ 4 ∨ 0x60000000 ≤ field b (entryStart b i) 4) ∧
        entryStart b i + field b 42 2 ≤ b.length := by
    intro i
    rw [List.forall_mem_append, ProgramHeader.checks_iff, List.forall_mem_singleton, and_assoc]
    rfl
  have htable : (Check.fits b 0 (field b 28 4)).holds ↔ field b 28 4 ≤ b.length := by
    rw [Check.fits, Nat.zero_add]
  rw [checks, List.forall_mem_append, List.forall_mem_cons, FileHeader.checks_iff, htable,
    List.forall_mem_flatMap]
  simp only [List.mem_range, hentry]
  constructor
  · rintro ⟨⟨hmagic, horder, hlen, hkind, harch⟩, htable, hentries⟩
    exact ⟨hmagic, horder, hlen, hkind, harch, htable, hentries⟩
  · intro h
    exact ⟨⟨h.magic, h.order, h.length, h.kind, h.architecture⟩, h.table, h.entries⟩

/-- Reading succeeds exactly on the bytes of an image, and then the headers are those of the file and
what is left is what follows the file header. Otherwise the first condition in the order of reading
that is violated is reported, at the field that it is about. A place of the table beyond the end is
reported at the start of the file, from which it counts, and a size of an entry that reaches beyond
the end at the start of that entry. -/
theorem Image.read_spec (b : List UInt8) :
    ((∃ image rest, Image.read b = .ok (image, rest)) ↔ WellFormed b) ∧
    (∀ image rest, Image.read b = .ok (image, rest) → image.At b ∧ rest = b.drop 52) ∧
    ((∀ c ∈ checks b, c.holds) ↔ WellFormed b) ∧
    ∀ e, Image.read b = .error e ↔
      ∃ c, FirstViolated (checks b) c ∧ e = ⟨c.problem, b.length - c.position⟩ := by
  have h := read_judged b
  refine ⟨⟨?_, ?_⟩, fun image rest hr => (h.of_ok hr).2, checks_iff, fun e => h.error_iff⟩
  · rintro ⟨image, rest, hr⟩
    exact checks_iff.mp (h.of_ok hr).1
  · intro hwell
    obtain ⟨⟨image, rest⟩, hr, -⟩ := h.passed (checks_iff.mpr hwell)
    exact ⟨image, rest, hr⟩

/-- A table that starts one byte beyond the end of the file, right after the file header: what is
reported is the start of the file, not the field with the place of the table. -/
theorem Image.table_beyond_end : ∃ b : List UInt8, b.length = 52 ∧ field b 28 4 = 53 ∧
    (∃ header, FileHeader.read b = .ok (header, [])) ∧
    Image.read b = .error ⟨.endOfInput, b.length - 0⟩ ∧
    Image.read b ≠ .error ⟨.endOfInput, b.length - 28⟩ := by
  let b : List UInt8 := [0x7f, 0x45, 0x4c, 0x46, 1, 1, 1, 0] ++ List.replicate 8 0 ++
    [2, 0, 3, 0, 1, 0, 0, 0, 0, 0, 0, 0, 53, 0, 0, 0] ++ List.replicate 20 0
  have hread : Image.read b = .error ⟨.endOfInput, 52⟩ := rfl
  refine ⟨b, rfl, rfl, ⟨_, rfl⟩, hread, ?_⟩
  rw [hread]
  simp [b]

end DemandPaging
