import ElfLoader.ElfImage

/-!
# Every run of the parser

`wp_parse` follows `Image.parse` against an arbitrary host.  Whatever the reads
answer, the parser does not stop the machine, and an image it returns is the
decoding of what was read (`Decoded`) with its segments in order
(`Image.Valid`).
-/

namespace ElfLoader.Elf

open ElfLoader Outcome Prog

/-! ### The executable header -/

/-- Identification: magic, class, byte order and version. -/
structure Identified (ident : Bytes) : Prop where
  magic : ident.take 4 = ELFMAG
  cls : ident[EI_CLASS]? = some ELFCLASS64
  data : ident[EI_DATA]? = some ELFDATA2LSB
  version : ident[EI_VERSION]? = some EV_CURRENT

def OsAbiOk (abi : UInt8) : Prop :=
  abi = ELFOSABI_NONE ∨ abi = ELFOSABI_GNU ∨ abi = ELFOSABI_ARM_AEABI

/-- What the parser asks of the executable header before it reads the table. -/
structure HeaderOk (arch : Arch) (size : Option Nat) (ehdr : Ehdr) : Prop where
  identified : Identified ehdr.ident
  osabi : ∃ abi, ehdr.ident[EI_OSABI]? = some abi ∧ OsAbiOk abi
  machine : ehdr.eMachine = EM_NATIVE arch
  type : ehdr.eType = ET_DYN ∨ ehdr.eType = ET_EXEC
  version : ehdr.eVersion = 1
  phnum_pos : 1 ≤ ehdr.ePhnum
  phnum_le : ehdr.ePhnum ≤ PHNUM_MAX
  phentsize : PHDR_SIZE ≤ ehdr.ePhentsize
  phtab_lt : ehdr.ePhoff + ehdr.ePhnum * ehdr.ePhentsize < 2 ^ 64
  phtab_le : ∀ n ∈ size, ehdr.ePhoff + ehdr.ePhnum * ehdr.ePhentsize ≤ n

theorem checkIdent_eq_ok {ehdr : Ehdr} {u : Unit} (h : ehdr.ident.length = EI_NIDENT) :
    checkIdent ehdr = ok u ↔ Identified ehdr.ident := by
  have hlen : ehdr.ident.length = 16 := h
  simp only [checkIdent, slice_of_le (show 0 ≤ 4 by decide) (show 4 ≤ ehdr.ident.length by omega),
    ok_bind, bind_eq_ok, index_eq_ok, guardErr_eq_ok, List.drop_zero]
  constructor
  · rintro ⟨cls, hcls, data, hdata, version, hversion, hok⟩
    simp only [not_or, not_not] at hok
    obtain ⟨hm, rfl, rfl, rfl⟩ := hok
    exact ⟨hm, hcls, hdata, hversion⟩
  · rintro ⟨hm, hcls, hdata, hversion⟩
    refine ⟨_, hcls, _, hdata, _, hversion, ?_⟩
    simp [hm]

theorem checkIdent_ne_panic {ehdr : Ehdr} (h : ehdr.ident.length = EI_NIDENT) :
    checkIdent ehdr ≠ panic := by
  have hlen : ehdr.ident.length = 16 := h
  rw [checkIdent, slice_of_le (by omega) (by omega), ok_bind,
    index_of_lt (show EI_CLASS < _ by simp only [EI_CLASS]; omega), ok_bind,
    index_of_lt (show EI_DATA < _ by simp only [EI_DATA]; omega), ok_bind,
    index_of_lt (show EI_VERSION < _ by simp only [EI_VERSION]; omega), ok_bind]
  exact guardErr_ne_panic

theorem checkEhdr_ne_panic {arch : Arch} {ehdr : Ehdr} (h : ehdr.ident.length = EI_NIDENT) :
    checkEhdr arch ehdr ≠ panic := by
  have hlen : ehdr.ident.length = 16 := h
  rw [checkEhdr, index_of_lt (show EI_OSABI < _ by simp only [EI_OSABI]; omega), ok_bind]
  refine bind_ne_panic guardErr_ne_panic fun _ _ => ?_
  refine bind_ne_panic guardErr_ne_panic fun _ _ => ?_
  refine bind_ne_panic guardErr_ne_panic fun _ _ => ?_
  refine bind_ne_panic guardErr_ne_panic fun _ _ => ?_
  refine bind_ne_panic guardErr_ne_panic fun _ _ => ?_
  refine bind_ne_panic guardErr_ne_panic fun _ _ => ?_
  refine bind_ne_panic guardErr_ne_panic fun _ _ => ?_
  exact guardErr_ne_panic

theorem checkPhtab_ne_panic {ehdr : Ehdr} {size : Option Nat} : checkPhtab ehdr size ≠ panic := by
  refine bind_ne_panic okOr_ne_panic fun _ _ => ?_
  exact bind_ne_panic okOr_ne_panic fun _ _ => checkFits_ne_panic

/-- The three header checks together accept exactly `HeaderOk`. -/
theorem checkHeader_eq_ok {arch : Arch} {ehdr : Ehdr} {size : Option Nat} {u : Unit}
    (h : ehdr.ident.length = EI_NIDENT) :
    (do checkIdent ehdr; checkEhdr arch ehdr; checkPhtab ehdr size) = ok u ↔
      HeaderOk arch size ehdr := by
  have hphnum : PHNUM_MAX < PN_XNUM := by decide
  simp only [bind_eq_ok, checkIdent_eq_ok h, checkEhdr, checkPhtab, index_eq_ok, guardErr_eq_ok,
    okOr_eq_ok, U64.checkedMul_eq_some, U64.checkedAdd_eq_some, checkFits_eq_ok]
  constructor
  · rintro ⟨-, hid, -, ⟨abi, hget, -, habi, -, hmach, -, htype, -, hver, -, -, -, hpos, -, hle, hent⟩,
      -, ⟨hmul, rfl⟩, -, ⟨hadd, rfl⟩, hfits⟩
    exact ⟨hid, ⟨abi, hget, habi⟩, by omega, by omega, by omega, by omega, by omega, by omega,
      hadd, hfits⟩
  · intro hok
    obtain ⟨abi, hget, habi⟩ := hok.osabi
    have hpos := hok.phnum_pos
    have hle := hok.phnum_le
    have hadd := hok.phtab_lt
    refine ⟨(), hok.identified, (), ⟨abi, hget, (), habi, (), ?_, (), ?_, (), ?_, (), ?_, (), ?_,
      (), ?_, ?_⟩, _, ⟨?_, rfl⟩, _, ⟨hadd, rfl⟩, hok.phtab_le⟩
    · exact not_not.mpr hok.machine
    · have htype := hok.type
      omega
    · exact not_not.mpr hok.version
    · omega
    · omega
    · omega
    · exact not_lt.mpr hok.phentsize
    · omega

theorem length_ident (f : Bytes) (h : EHDR_SIZE ≤ f.length) :
    (ehdrAt f).ident.length = EI_NIDENT := by
  have hident : 0 + EI_NIDENT ≤ f.length := le_trans (by decide) h
  rw [ehdrAt, length_bytesAt hident]

/-! ### What a successful parse has read -/

/-- The image is the decoding of reads that satisfy `R off bytes`, and passed
    every check. -/
structure Decoded (R : Nat → Bytes → Prop) (arch : Arch) (pg : PageSize) (size : Option Nat)
    (image : Image) : Prop where
  ehdr : ∃ raw : Bytes, R 0 raw ∧ raw.length = EHDR_SIZE ∧ image.ehdr = ehdrAt raw
  header : HeaderOk arch size image.ehdr
  length : image.phdrs.length = image.ehdr.ePhnum
  phdrs : ∀ i (hi : i < image.phdrs.length), ∃ ent : Bytes,
    R (image.ehdr.ePhoff + i * image.ehdr.ePhentsize) ent ∧ ent.length = PHDR_SIZE ∧
      image.phdrs[i] = phdrAt ent 0
  table : LoadTable pg size image.phdrs image.loads
  image_eq : image = imageOf image.ehdr image.phdrs image.loads

/-- What holds of every image the parser returns, whatever was read. -/
structure Image.Valid (pg : PageSize) (image : Image) : Prop where
  table : ∃ size, LoadTable pg size image.phdrs image.loads
  bounded : ∀ ph ∈ image.phdrs, ph.Bounded
  entry_lt : image.ehdr.eEntry < 2 ^ 64
  type : image.ehdr.eType = ET_DYN ∨ image.ehdr.eType = ET_EXEC

theorem Decoded.valid {R : Nat → Bytes → Prop} {arch : Arch} {pg : PageSize}
    {size : Option Nat} {image : Image} (h : Decoded R arch pg size image) : image.Valid pg where
  table := ⟨size, h.table⟩
  bounded := by
    intro ph hph
    obtain ⟨i, hi, rfl⟩ := List.getElem_of_mem hph
    obtain ⟨ent, -, -, heq⟩ := h.phdrs i hi
    rw [heq]
    exact phdrAt_bounded ent 0
  entry_lt := by
    obtain ⟨raw, -, -, heq⟩ := h.ehdr
    rw [heq]
    exact leAt_lt raw _ 8
  type := h.header.type

section Wp

variable {σ : Type} {H : Handler Host σ} {pre : σ → HostOp → Prop} {src : Source}

/-- The calls of the parser are harmless: they keep `Inv`, and a read that
    succeeds answers in `R`. -/
structure Reads (H : Handler Host σ) (pre : σ → HostOp → Prop) (src : Source) (Inv : σ → Prop)
    (R : Nat → Bytes → Prop) : Prop where
  keep : ∀ s op, Inv s → op.Quiet → pre s op ∧ ∀ r s', H s op r s' → Inv s'
  read : ∀ s off n buf s', Inv s → H s (.readExactAt src off n) (.ok buf) s' → R off buf.val

variable {Inv : σ → Prop} {R : Nat → Bytes → Prop} {X : Prop}

theorem Reads.wp_read (h : Reads H pre src Inv R) {s : σ} (hs : Inv s) (off n : Nat) :
    wp H pre (readExactAt src off n)
      (post (fun s buf => Inv s ∧ R off buf.val) (fun s _ => Inv s) X) s := by
  have hk := h.keep s (.readExactAt src off n) hs trivial
  refine ⟨hk.1, ?_⟩
  intro r s' hr
  cases r with
  | ok buf => exact ⟨hk.2 _ s' hr, h.read s off n buf s' hs hr⟩
  | error e => exact hk.2 _ s' hr

theorem Reads.wp_tryReserve {ε : Type} (h : Reads H pre src Inv R) {s : σ} (hs : Inv s) (n : Nat)
    (e : ε) : wp H pre (tryReserve n e) (post (fun s _ => Inv s) (fun s _ => Inv s) X) s := by
  have hk := h.keep s (.tryReserve n) hs trivial
  refine ⟨hk.1, ?_⟩
  intro r s' hr
  cases r with
  | true => exact hk.2 _ s' hr
  | false => exact hk.2 _ s' hr

/-- The loop over the header table. -/
theorem wp_readPhdrs (h : Reads H pre src Inv R) {ehdr : Ehdr} (n i : Nat)
    (hlt : ehdr.ePhoff + (i + n) * ehdr.ePhentsize < 2 ^ 64) (hent : 0 < ehdr.ePhentsize)
    {s : σ} (hs : Inv s) :
    wp H pre (readPhdrs src ehdr n i)
      (post (fun s phdrs => Inv s ∧ phdrs.length = n ∧
        ∀ j (hj : j < phdrs.length), ∃ ent : Bytes,
          R (ehdr.ePhoff + (i + j) * ehdr.ePhentsize) ent ∧ ent.length = PHDR_SIZE ∧
            phdrs[j] = phdrAt ent 0) (fun s _ => Inv s) X) s := by
  induction n generalizing i s with
  | zero => exact ⟨hs, rfl, by simp⟩
  | succ n ih =>
    have hi : (i + 1) * ehdr.ePhentsize ≤ (i + (n + 1)) * ehdr.ePhentsize :=
      Nat.mul_le_mul_right _ (by omega)
    rw [Nat.add_mul, Nat.one_mul] at hi
    rw [readPhdrs, U64.mul_of_lt (by omega), lift_ok_bind, U64.add_of_lt (by omega), lift_ok_bind]
    refine wp_bind_post (wp_mapErr_post (h.wp_read hs _ _)) ?_
    rintro s ent ⟨hs, hent⟩
    rw [Phdr.parse_eq ent.property, mapErr_ok, lift_ok_bind]
    refine wp_bind_post (ih (i + 1) ?_ hs) ?_
    · rwa [show i + 1 + n = i + (n + 1) by omega]
    rintro s rest ⟨hs, hlen, hget⟩
    refine ⟨hs, by simp [hlen], ?_⟩
    intro j hj
    cases j with
    | zero => exact ⟨ent.val, hent, ent.property, rfl⟩
    | succ j =>
      obtain ⟨e, he, helen, heq⟩ := hget j (by simpa using hj)
      exact ⟨e, by rwa [show i + (j + 1) = i + 1 + j by omega], helen, by simpa using heq⟩

/-- **The parser against any host**: it returns an image that is the decoding of
    what it read, or an error, and touches nothing. -/
theorem wp_parse (h : Reads H pre src Inv R) (arch : Arch) (pg : PageSize) {s : σ} (hs : Inv s) :
    wp H pre (Image.parse arch src pg.bytes)
      (post (fun s image => Inv s ∧ Decoded R arch pg src.size image) (fun s _ => Inv s) X) s := by
  refine wp_bind_post (wp_mapErr_post (h.wp_read hs _ _)) ?_
  rintro s raw ⟨hs, hraw⟩
  have hident : (ehdrAt raw.val).ident.length = EI_NIDENT :=
    length_ident _ raw.property.ge
  rw [Ehdr.parse_eq raw.property, mapErr_ok, lift_ok_bind]
  refine wp_lift_bind ?_ (fun _ _ => hs) fun hp => absurd hp (checkIdent_ne_panic hident)
  intro _ hid
  refine wp_lift_bind ?_ (fun _ _ => hs) fun hp => absurd hp (checkEhdr_ne_panic hident)
  intro _ heh
  refine wp_lift_bind ?_ (fun _ _ => hs) fun hp => absurd hp checkPhtab_ne_panic
  intro _ htab
  have hheader : HeaderOk arch src.size (ehdrAt raw.val) := by
    refine (checkHeader_eq_ok (u := ()) hident).mp ?_
    simp only [hid, heh, htab, ok_bind]
  refine wp_bind_post (h.wp_tryReserve hs _ _) ?_
  intro s _ hs
  have hent : 0 < (ehdrAt raw.val).ePhentsize := lt_of_lt_of_le (by decide) hheader.phentsize
  refine wp_bind_post (wp_readPhdrs h _ 0 (by simpa using hheader.phtab_lt) hent hs) ?_
  rintro s phdrs ⟨hs, hlen, hget⟩
  refine wp_lift_post ?_ (fun _ _ => hs) fun hp => absurd hp (assemble_ne_panic pg _ _ _)
  intro image himage
  obtain ⟨loads, htable, rfl⟩ := (assemble_eq_ok pg).mp himage
  refine ⟨hs, ⟨raw.val, hraw, raw.property, rfl⟩, hheader, hlen, ?_, htable, rfl⟩
  intro i hi
  have hent := hget i hi
  rw [Nat.zero_add] at hent
  exact hent

end Wp

/-- The parser returns this image for some source, whatever its reads answer. -/
def Accepted (arch : Arch) (pg : PageSize) (image : Image) : Prop :=
  ∃ src tr, Reaches (I := Host) anyAnswer () (Image.parse arch src pg.bytes) tr ()
    (.done (ok image))

theorem Accepted.valid {arch : Arch} {pg : PageSize} {image : Image}
    (h : Accepted arch pg image) : image.Valid pg := by
  obtain ⟨src, tr, hrun⟩ := h
  have hreads : Reads anyAnswer (fun _ _ => True) src (fun _ => True) (fun _ _ => True) :=
    ⟨fun _ _ _ _ => ⟨trivial, fun _ _ _ => trivial⟩, fun _ _ _ _ _ _ _ => trivial⟩
  exact (wp_reaches (wp_parse (X := False) hreads arch pg trivial) hrun).2.valid

/-! ### The segments of a valid image -/

def Image.seg (image : Image) (i : Nat) : Phdr := hdr image.phdrs i

/-- First page and page-rounded end of a segment, as linked. -/
def Phdr.start (pg : PageSize) (ph : Phdr) : Nat := roundDown pg.bytes ph.pVaddr

def Phdr.fin (pg : PageSize) (ph : Phdr) : Nat := roundUp pg.bytes (ph.pVaddr + ph.pMemsz)

theorem Phdr.start_le_fin (pg : PageSize) (ph : Phdr) : ph.start pg ≤ ph.fin pg :=
  (roundDown_le _ _).trans ((Nat.le_add_right _ _).trans (le_roundUp pg.pos _))

/-- Lowest and highest page boundary of the segments. -/
def Image.lo (pg : PageSize) (image : Image) : Nat :=
  (image.seg (image.loads.head?.getD 0)).start pg

def Image.hi (pg : PageSize) (image : Image) : Nat :=
  (image.seg (image.loads.getLast?.getD 0)).fin pg

namespace Image.Valid

variable {pg : PageSize} {image : Image}

theorem ne_nil (h : image.Valid pg) : image.loads ≠ [] := by
  obtain ⟨size, ht⟩ := h.table
  exact ht.ne_nil

theorem lt_length (h : image.Valid pg) {i : Nat} (hi : i ∈ image.loads) :
    i < image.phdrs.length := by
  obtain ⟨size, ht⟩ := h.table
  exact (hdr_of_load ((ht.mem_iff i).mp hi)).1

theorem index_seg {ε : Type} (h : image.Valid pg) {i : Nat} (hi : i ∈ image.loads) :
    (index image.phdrs i : Outcome ε Phdr) = ok (image.seg i) :=
  index_hdr (h.lt_length hi)

theorem seg_ok (h : image.Valid pg) {i : Nat} (hi : i ∈ image.loads) :
    ∃ size, LoadOk pg.bytes size (image.seg i) := by
  obtain ⟨size, ht⟩ := h.table
  have hl := hdr_of_load ((ht.mem_iff i).mp hi)
  exact ⟨size, ht.load_ok _ (hdr_mem hl.1) hl.2⟩

theorem seg_bounded (h : image.Valid pg) {i : Nat} (hi : i ∈ image.loads) :
    (image.seg i).Bounded :=
  h.bounded _ (hdr_mem (h.lt_length hi))

/-- The segments are the `PT_LOAD` headers. -/
theorem exists_seg (h : image.Valid pg) {ph : Phdr} (hph : ph ∈ image.phdrs)
    (htype : ph.pType = PT_LOAD) : ∃ i ∈ image.loads, image.seg i = ph := by
  obtain ⟨size, ht⟩ := h.table
  obtain ⟨i, hi⟩ := List.getElem?_of_mem hph
  exact ⟨i, (ht.mem_iff i).mpr ⟨ph, hi, htype⟩, hdr_eq hi⟩

theorem seg_mem (h : image.Valid pg) {i : Nat} (hi : i ∈ image.loads) :
    image.seg i ∈ image.phdrs ∧ (image.seg i).pType = PT_LOAD := by
  obtain ⟨size, ht⟩ := h.table
  have hl := hdr_of_load ((ht.mem_iff i).mp hi)
  exact ⟨hdr_mem hl.1, hl.2⟩

theorem mem_lt (h : image.Valid pg) {i : Nat} (hi : i ∈ image.loads) :
    (image.seg i).pVaddr + (image.seg i).pMemsz < 2 ^ 64 := by
  obtain ⟨size, hok⟩ := h.seg_ok hi
  exact hok.mem_lt

/-- Every two segments, not only neighbours, are apart. -/
theorem pairwise (h : image.Valid pg) :
    image.loads.Pairwise fun i j => (image.seg i).fin pg ≤ (image.seg j).start pg := by
  obtain ⟨size, ht⟩ := h.table
  refine (List.isChain_iff_pairwise.mp ht.chain).imp ?_
  intro i j hij
  exact le_roundDown pg.pos (dvd_roundUp _ _) hij

/-- The first segment is the lowest. -/
theorem lo_le (h : image.Valid pg) {i : Nat} (hi : i ∈ image.loads) :
    image.lo pg ≤ (image.seg i).start pg := by
  obtain ⟨first, rest, hl⟩ := List.exists_cons_of_ne_nil h.ne_nil
  have hp := h.pairwise
  rw [hl] at hi hp
  simp only [Image.lo, hl, List.head?_cons, Option.getD_some]
  rcases List.mem_cons.mp hi with rfl | hrest
  · exact le_rfl
  · exact (Phdr.start_le_fin pg _).trans ((List.pairwise_cons.mp hp).1 i hrest)

/-- The last segment is the highest. -/
theorem le_hi (h : image.Valid pg) {i : Nat} (hi : i ∈ image.loads) :
    (image.seg i).fin pg ≤ image.hi pg := by
  obtain ⟨init, last, hl⟩ := (List.eq_nil_or_concat' image.loads).resolve_left h.ne_nil
  have hp := h.pairwise
  rw [hl] at hi hp
  simp only [Image.hi, hl, List.getLast?_append, List.getLast?_singleton, Option.some_or,
    Option.getD_some]
  rcases List.mem_append.mp hi with hinit | hlast
  · have hle := (List.pairwise_append.mp hp).2.2 i hinit last (by simp)
    exact hle.trans (Phdr.start_le_fin pg _)
  · rw [List.mem_singleton.mp hlast]

theorem exists_lo (h : image.Valid pg) : ∃ i ∈ image.loads, (image.seg i).start pg = image.lo pg := by
  obtain ⟨first, rest, hl⟩ := List.exists_cons_of_ne_nil h.ne_nil
  exact ⟨first, by simp [hl], by simp [Image.lo, hl]⟩

theorem exists_hi (h : image.Valid pg) : ∃ i ∈ image.loads, (image.seg i).fin pg = image.hi pg := by
  obtain ⟨init, last, hl⟩ := (List.eq_nil_or_concat' image.loads).resolve_left h.ne_nil
  exact ⟨last, by simp [hl], by simp [Image.hi, hl]⟩

theorem lo_le_hi (h : image.Valid pg) : image.lo pg ≤ image.hi pg := by
  obtain ⟨i, hi, heq⟩ := h.exists_lo
  exact heq ▸ (Phdr.start_le_fin pg _).trans (h.le_hi hi)

theorem dvd_lo (h : image.Valid pg) : pg.bytes ∣ image.lo pg := by
  obtain ⟨i, -, heq⟩ := h.exists_lo
  exact heq ▸ dvd_roundDown _ _

theorem dvd_hi (h : image.Valid pg) : pg.bytes ∣ image.hi pg := by
  obtain ⟨i, -, heq⟩ := h.exists_hi
  exact heq ▸ dvd_roundUp _ _

/-- `va_span` is the lowest and the highest page boundary, unless the latter is
    past the end of the address space. -/
theorem vaSpan_eq (h : image.Valid pg) :
    image.vaSpan pg.bytes =
      if image.hi pg < 2 ^ 64 then ok (image.lo pg, image.hi pg) else err Error.ENOEXEC := by
  obtain ⟨first, rest, hl⟩ := List.exists_cons_of_ne_nil h.ne_nil
  have hlast : image.loads[image.loads.length - 1]? = image.loads.getLast? :=
    List.getLast?_eq_getElem?.symm
  obtain ⟨last, hgl⟩ : ∃ last, image.loads.getLast? = some last :=
    ⟨_, List.getLast?_eq_some_getLast h.ne_nil⟩
  have hfirst : first ∈ image.loads := by simp [hl]
  have hlastm : last ∈ image.loads := List.mem_of_getLast? hgl
  have hlo : image.lo pg = (image.seg first).start pg := by simp [Image.lo, hl]
  have hhi : image.hi pg = (image.seg last).fin pg := by simp [Image.hi, hgl]
  have h0 : (index image.loads 0 : Outcome Error Nat) = ok first := by simp [hl]
  have h1 : (index image.loads (image.loads.length - 1) : Outcome Error Nat) = ok last := by
    rw [index_eq_ok, hlast, hgl]
  rw [Image.vaSpan, h0, ok_bind, h.index_seg hfirst, ok_bind, h1, ok_bind, h.index_seg hlastm,
    ok_bind, alignDown_eq pg (h.seg_bounded hfirst).vaddr, ok_bind,
    U64.add_of_lt (h.mem_lt hlastm), ok_bind, alignUp_eq, ok_bind, hlo, hhi]
  by_cases hlt : (image.seg last).fin pg < 2 ^ 64
  · rw [if_pos hlt]
    unfold Phdr.fin at *
    rw [if_pos hlt]
    rfl
  · rw [if_neg hlt]
    unfold Phdr.fin at *
    rw [if_neg hlt]
    rfl

end Image.Valid

end ElfLoader.Elf
