import ElfLoader.ElfParse

/-!
# The format the parser accepts

`Loadable` says, in terms of the bytes of a file and with unbounded integers,
which files can be loaded; `View` says what an image tells about the file it was
parsed from.  The parser accepts exactly the loadable files, and every image it
returns is a view of its file.
-/

namespace ElfLoader.Elf

open ElfLoader Outcome Prog

/-- A byte slice of the machine: its length is a `usize`. -/
abbrev Slice := { f : Bytes // f.length < 2 ^ 64 }

/-- `ImageSource for &[u8]`, with a heap that has room. -/
def sliceHost (f : Bytes) : (op : HostOp) → Option op.Res
  | .readExactAt _ off n =>
      some (if h : off + n ≤ f.length then .ok ⟨bytesAt f off n, length_bytesAt h⟩
        else .error Error.ENOEXEC)
  | .tryReserve _ => some true
  | _ => none

def sliceSource (f : Bytes) : Source := ⟨0, some f.length⟩

def parseSlice (arch : Arch) (f : Bytes) (pg : PageSize) : Option (Outcome Reject Image) :=
  (Image.parse arch (sliceSource f) pg.bytes).eval (I := Host) (sliceHost f)

/-- `count` entries of the program header table, from entry `i` on. -/
def phdrsFrom (f : Bytes) (ehdr : Ehdr) (i count : Nat) : List Phdr :=
  (List.range' i count).map fun k => phdrAt f (ehdr.ePhoff + k * ehdr.ePhentsize)

def phdrsAt (f : Bytes) : List Phdr := phdrsFrom f (ehdrAt f) 0 (ehdrAt f).ePhnum

/-- The `PT_LOAD` indices in ascending `p_vaddr`, ties in table order. -/
structure IsLoadOrder (phdrs : List Phdr) (order : List Nat) : Prop where
  mem_iff : ∀ i, i ∈ order ↔ ∃ ph, phdrs[i]? = some ph ∧ ph.pType = PT_LOAD
  sorted : order.Pairwise (VaddrLt phdrs)

/-- A `PT_LOAD` header that can be loaded from a file of `size` bytes. -/
structure LoadableSegment (pg : PageSize) (size : Nat) (ph : Phdr) : Prop where
  filesz_le : ph.pFilesz ≤ ph.pMemsz
  align : ph.pAlign = 0 ∨ ∃ k, ph.pAlign = 2 ^ k
  mem_lt : ph.pVaddr + ph.pMemsz < 2 ^ 64
  file_le : ph.pOffset + ph.pFilesz ≤ size
  congr : 0 < ph.pFilesz → ph.pVaddr % pg.bytes = ph.pOffset % pg.bytes

/-- The files the loader can load, from their bytes alone. -/
structure Loadable (arch : Arch) (pg : PageSize) (f : Bytes) : Prop where
  present : EHDR_SIZE ≤ f.length
  identified : Identified (bytesAt f 0 EI_NIDENT)
  osabi : ∃ abi, f[EI_OSABI]? = some abi ∧ OsAbiOk abi
  machine : leAt f 18 2 = EM_NATIVE arch
  type : leAt f 16 2 = ET_DYN ∨ leAt f 16 2 = ET_EXEC
  version : leAt f 20 4 = 1
  phnum : 1 ≤ leAt f 56 2 ∧ leAt f 56 2 ≤ 1024
  phentsize : 56 ≤ leAt f 54 2
  phtab : leAt f 32 8 + leAt f 56 2 * leAt f 54 2 ≤ f.length
  load : ∀ ph ∈ phdrsAt f, ph.pType = PT_LOAD → LoadableSegment pg f.length ph
  interp_one : ((phdrsAt f).filter fun ph => ph.pType = PT_INTERP).length ≤ 1
  interp : ∀ ph ∈ phdrsAt f, ph.pType = PT_INTERP →
    1 ≤ ph.pFilesz ∧ ph.pFilesz ≤ 4096 ∧ ph.pOffset + ph.pFilesz ≤ f.length
  some_load : ∃ ph ∈ phdrsAt f, ph.pType = PT_LOAD
  apart : ∀ order, IsLoadOrder (phdrsAt f) order → order.IsChain (SegBefore pg (phdrsAt f))

/-- The last header of a type: it overrides those before it. -/
def lastOf (type : Nat) (phdrs : List Phdr) : Option Phdr :=
  (phdrs.filter fun ph => ph.pType = type).getLast?

/-- What an image says about the file it was parsed from. -/
structure View (pg : PageSize) (f : Bytes) (image : Image) : Prop where
  ehdr : image.ehdr = ehdrAt f
  length : image.phdrs.length = image.ehdr.ePhnum
  phdrs : ∀ i < image.ehdr.ePhnum,
    image.phdrs[i]? = some (phdrAt f (image.ehdr.ePhoff + i * image.ehdr.ePhentsize))
  nodup : image.loads.Nodup
  order : IsLoadOrder image.phdrs image.loads
  disjoint : image.loads.Pairwise (SegBefore pg image.phdrs)
  interp : ∀ ph, image.interp = some ph ↔ ph ∈ image.phdrs ∧ ph.pType = PT_INTERP
  phdrSeg : image.phdrSeg = lastOf PT_PHDR image.phdrs
  tls : image.tls = lastOf PT_TLS image.phdrs
  relro : image.relro = lastOf PT_GNU_RELRO image.phdrs
  execStack : image.execStack = ((lastOf PT_GNU_STACK image.phdrs).map Phdr.isExec).getD false
  span : ∀ lo hi, image.vaSpan pg.bytes = ok (lo, hi) →
    (∀ i ∈ image.loads, lo ≤ (image.seg i).start pg ∧ (image.seg i).fin pg ≤ hi) ∧
      (∃ i ∈ image.loads, (image.seg i).start pg = lo) ∧
      ∃ i ∈ image.loads, (image.seg i).fin pg = hi
  /-- There is a span unless the last page ends past the address space. -/
  spans : (∃ lo hi, image.vaSpan pg.bytes = ok (lo, hi)) ↔
    ∀ i ∈ image.loads, (image.seg i).fin pg < 2 ^ 64

/-! ### Soundness -/

def SliceRead (f : Bytes) (off : Nat) (bs : Bytes) : Prop :=
  off + bs.length ≤ f.length ∧ bs = bytesAt f off bs.length

theorem reads_slice (f : Bytes) (src : Source) :
    Reads (fun (_ : Unit) (op : HostOp) (r : op.Res) (_ : Unit) => sliceHost f op = some r)
      (fun _ _ => True) src (fun _ => True) (SliceRead f) where
  keep := fun _ _ _ _ => ⟨trivial, fun _ _ _ => trivial⟩
  read := by
    intro _ off n buf _ _ hread
    simp only [sliceHost, Option.some.injEq] at hread
    split at hread
    · rename_i hle
      cases hread
      simp only [SliceRead, length_bytesAt hle, and_true]
      exact hle
    · cases hread

theorem decoded_of_parseSlice {arch : Arch} {pg : PageSize} {f : Bytes} {image : Image}
    (h : parseSlice arch f pg = some (ok image)) :
    Decoded (SliceRead f) arch pg (some f.length) image :=
  (wp_eval (wp_parse (X := False) (reads_slice f (sliceSource f)) arch pg trivial) h).2

theorem accepted_of_parseSlice {arch : Arch} {pg : PageSize} {f : Bytes} {image : Image}
    (h : parseSlice arch f pg = some (ok image)) : Accepted arch pg image :=
  ⟨sliceSource f, eval_reaches h⟩

theorem Decoded.ehdr_slice {arch : Arch} {pg : PageSize} {f : Bytes} {size : Option Nat}
    {image : Image} (h : Decoded (SliceRead f) arch pg size image) :
    EHDR_SIZE ≤ f.length ∧ image.ehdr = ehdrAt f := by
  obtain ⟨raw, ⟨hle, hraw⟩, hlen, heq⟩ := h.ehdr
  rw [hlen] at hle hraw
  exact ⟨by omega, by rw [heq, hraw, ehdrAt_bytesAt]⟩

theorem Decoded.phdrs_slice {arch : Arch} {pg : PageSize} {f : Bytes} {size : Option Nat}
    {image : Image} (h : Decoded (SliceRead f) arch pg size image) :
    image.phdrs = phdrsAt f := by
  have hehdr := h.ehdr_slice.2
  refine List.ext_getElem ?_ ?_
  · simp [h.length, phdrsAt, phdrsFrom, hehdr]
  · intro i hi _
    obtain ⟨ent, ⟨-, hent⟩, hlen, heq⟩ := h.phdrs i hi
    rw [hlen] at hent
    rw [heq, hent, phdrAt_bytesAt, hehdr]
    simp [phdrsAt, phdrsFrom]

theorem interpCount_eq (phdrs : List Phdr) :
    interpCount phdrs = (phdrs.filter fun ph => ph.pType = PT_INTERP).length := by
  rw [interpCount, List.countP_eq_length_filter]
  congr 1

/-- The orders of the `PT_LOAD` indices: there is only one. -/
theorem IsLoadOrder.eq {phdrs : List Phdr} {a b : List Nat} (ha : IsLoadOrder phdrs a)
    (hb : IsLoadOrder phdrs b) : a = b := by
  have hperm : a.Perm b :=
    (List.perm_ext_iff_of_nodup (ha.sorted.imp VaddrLt.ne) (hb.sorted.imp VaddrLt.ne)).mpr
      fun i => (ha.mem_iff i).trans (hb.mem_iff i).symm
  exact hperm.eq_of_pairwise (fun i j _ _ hij hji => absurd hji hij.asymm) ha.sorted hb.sorted

theorem LoadTable.order {pg : PageSize} {size : Option Nat} {phdrs : List Phdr}
    {loads : List Nat} (h : LoadTable pg size phdrs loads) : IsLoadOrder phdrs loads :=
  ⟨h.mem_iff, h.sorted⟩

/-- Reads that answer one thing leave room for one image. -/
theorem Decoded.unique {R : Nat → Bytes → Prop} {arch : Arch} {pg : PageSize}
    {size : Option Nat} {image image' : Image}
    (hR : ∀ off bs bs', R off bs → R off bs' → bs.length = bs'.length → bs = bs')
    (h : Decoded R arch pg size image) (h' : Decoded R arch pg size image') : image = image' := by
  have hehdr : image.ehdr = image'.ehdr := by
    obtain ⟨raw, hread, hlen, heq⟩ := h.ehdr
    obtain ⟨raw', hread', hlen', heq'⟩ := h'.ehdr
    rw [heq, heq', hR 0 raw raw' hread hread' (hlen.trans hlen'.symm)]
  have hphdrs : image.phdrs = image'.phdrs := by
    refine List.ext_getElem ?_ ?_
    · rw [h.length, h'.length, hehdr]
    · intro i hi hi'
      obtain ⟨ent, hread, hlen, heq⟩ := h.phdrs i hi
      obtain ⟨ent', hread', hlen', heq'⟩ := h'.phdrs i hi'
      rw [← hehdr] at hread'
      rw [heq, heq', hR _ ent ent' hread hread' (hlen.trans hlen'.symm)]
  have hloads : image.loads = image'.loads := by
    refine h.table.order.eq ?_
    rw [hphdrs]
    exact h'.table.order
  rw [h.image_eq, h'.image_eq, hehdr, hphdrs, hloads]

theorem getElem?_ident {f : Bytes} {k : Nat} (hk : k < EI_NIDENT) :
    (ehdrAt f).ident[k]? = f[k]? := by
  rw [ehdrAt, getElem?_bytesAt hk, Nat.zero_add]

/-- Whatever the parser accepts is loadable. -/
theorem Decoded.loadable {arch : Arch} {pg : PageSize} {f : Bytes} {image : Image}
    (h : Decoded (SliceRead f) arch pg (some f.length) image) : Loadable arch pg f := by
  obtain ⟨hpresent, hehdr⟩ := h.ehdr_slice
  have hphdrs := h.phdrs_slice
  have hheader := h.header
  have htable := h.table
  rw [hehdr] at hheader
  rw [hphdrs] at htable
  obtain ⟨abi, habi, hok⟩ := hheader.osabi
  rw [getElem?_ident (by decide)] at habi
  refine ⟨hpresent, hheader.identified, ⟨abi, habi, hok⟩, hheader.machine, hheader.type,
    hheader.version, ⟨hheader.phnum_pos, hheader.phnum_le⟩, hheader.phentsize,
    hheader.phtab_le _ rfl, ?_, ?_, ?_, ?_, ?_⟩
  · intro ph hph htype
    have hload := htable.load_ok ph hph htype
    exact ⟨hload.filesz_le, hload.align, hload.mem_lt, hload.file_le _ rfl, hload.congr⟩
  · rw [← interpCount_eq]
    exact htable.interp_one
  · intro ph hph htype
    have hinterp := htable.interp_ok ph hph htype
    exact ⟨hinterp.filesz_pos, hinterp.filesz_le, (hinterp.file_le _ rfl).2⟩
  · obtain ⟨i, hi⟩ := List.exists_mem_of_ne_nil _ htable.ne_nil
    obtain ⟨ph, hget, htype⟩ := (htable.mem_iff i).mp hi
    exact ⟨ph, List.mem_of_getElem? hget, htype⟩
  · intro order horder
    rw [horder.eq htable.order]
    exact htable.chain

/-- A field that every header of one type sets, and no other, is set by the last
    header of that type. -/
theorem collect_lastOf {β : Type} (get : Classified → β) (val : Phdr → β) (type : Nat)
    (hset : ∀ c i ph, get (collectOne c i ph) = if ph.pType = type then val ph else get c)
    (phdrs : List Phdr) (i : Nat) (c : Classified) :
    get (collect phdrs i c) = ((lastOf type phdrs).map val).getD (get c) := by
  induction phdrs generalizing i c with
  | nil => rfl
  | cons ph rest ih =>
    rw [collect, ih, hset]
    by_cases h : ph.pType = type
    · rw [if_pos h, lastOf, lastOf, List.filter_cons_of_pos (by simpa using h), List.getLast?_cons]
      cases (rest.filter fun ph => ph.pType = type).getLast? <;> rfl
    · rw [if_neg h, lastOf, lastOf, List.filter_cons_of_neg (by simpa using h)]

theorem collect_interp (phdrs : List Phdr) :
    (collect phdrs 0 .empty).interp = lastOf PT_INTERP phdrs := by
  rw [collect_lastOf Classified.interp some PT_INTERP]
  · cases lastOf PT_INTERP phdrs <;> rfl
  · intro c i ph
    split
    · rename_i h
      exact collectOne_interp_eq c i h
    · rename_i h
      exact collectOne_interp_ne c i h

/-- The headers that are only noted down. -/
theorem collect_noted (phdrs : List Phdr) :
    (collect phdrs 0 .empty).phdrSeg = lastOf PT_PHDR phdrs ∧
      (collect phdrs 0 .empty).tls = lastOf PT_TLS phdrs ∧
      (collect phdrs 0 .empty).relro = lastOf PT_GNU_RELRO phdrs ∧
      (collect phdrs 0 .empty).execStack =
        ((lastOf PT_GNU_STACK phdrs).map Phdr.isExec).getD false := by
  have hget (o : Option Phdr) : (o.map some).getD none = o := by cases o <;> rfl
  refine ⟨?_, ?_, ?_, ?_⟩
  · rw [collect_lastOf Classified.phdrSeg some PT_PHDR]
    · exact hget _
    · intro c i ph
      unfold collectOne
      repeat' split
      all_goals simp_all +decide
  · rw [collect_lastOf Classified.tls some PT_TLS]
    · exact hget _
    · intro c i ph
      unfold collectOne
      repeat' split
      all_goals simp_all +decide
  · rw [collect_lastOf Classified.relro some PT_GNU_RELRO]
    · exact hget _
    · intro c i ph
      unfold collectOne
      repeat' split
      all_goals simp_all +decide
  · rw [collect_lastOf Classified.execStack Phdr.isExec PT_GNU_STACK]
    · rfl
    · intro c i ph
      unfold collectOne
      repeat' split
      all_goals simp_all +decide

/-- The interpreter header is the only one there is. -/
theorem collect_interp_eq_some {phdrs : List Phdr} (hone : interpCount phdrs ≤ 1) (ph : Phdr) :
    (collect phdrs 0 .empty).interp = some ph ↔ ph ∈ phdrs ∧ ph.pType = PT_INTERP := by
  have hmem : ph ∈ phdrs ∧ ph.pType = PT_INTERP ↔
      ph ∈ phdrs.filter fun ph => ph.pType = PT_INTERP := by simp
  rw [collect_interp, hmem, lastOf]
  rw [interpCount_eq] at hone
  generalize (phdrs.filter fun ph => ph.pType = PT_INTERP) = found at hone ⊢
  match found, hone with
  | [], _ => simp
  | [q], _ => simp [eq_comm]

/-- An image the parser returns is a view of its file. -/
theorem Decoded.view {arch : Arch} {pg : PageSize} {f : Bytes} {image : Image}
    (h : Decoded (SliceRead f) arch pg (some f.length) image) : View pg f image where
  ehdr := h.ehdr_slice.2
  length := h.length
  phdrs := by
    intro i hi
    rw [h.ehdr_slice.2] at hi
    simp [h.phdrs_slice, h.ehdr_slice.2, phdrsAt, phdrsFrom, hi]
  nodup := h.table.sorted.imp VaddrLt.ne
  order := h.table.order
  disjoint := List.isChain_iff_pairwise.mp h.table.chain
  interp := by
    intro ph
    rw [← collect_interp_eq_some h.table.interp_one, h.image_eq]
    rfl
  phdrSeg := by
    rw [h.image_eq]
    exact (collect_noted image.phdrs).1
  tls := by
    rw [h.image_eq]
    exact (collect_noted image.phdrs).2.1
  relro := by
    rw [h.image_eq]
    exact (collect_noted image.phdrs).2.2.1
  execStack := by
    rw [h.image_eq]
    exact (collect_noted image.phdrs).2.2.2
  span := by
    intro lo hi hspan
    have hv := h.valid
    rw [hv.vaSpan_eq] at hspan
    split at hspan
    · cases hspan
      exact ⟨fun i hi => ⟨hv.lo_le hi, hv.le_hi hi⟩, hv.exists_lo, hv.exists_hi⟩
    · cases hspan
  spans := by
    have hv := h.valid
    rw [hv.vaSpan_eq]
    constructor
    · rintro ⟨lo, hi, hspan⟩ i hi
      split at hspan
      · exact lt_of_le_of_lt (hv.le_hi hi) ‹_›
      · cases hspan
    · intro hfin
      rcases hv.exists_hi with ⟨i, hi, heq⟩
      have hlt : image.hi pg < 2 ^ 64 := heq ▸ hfin i hi
      exact ⟨_, _, if_pos hlt⟩

/-! ### Completeness -/

theorem Loadable.header {arch : Arch} {pg : PageSize} {f : Bytes} (hf : f.length < 2 ^ 64)
    (h : Loadable arch pg f) : HeaderOk arch (some f.length) (ehdrAt f) where
  identified := h.identified
  osabi := by
    obtain ⟨abi, habi, hok⟩ := h.osabi
    exact ⟨abi, by rw [getElem?_ident (by decide), habi], hok⟩
  machine := h.machine
  type := h.type
  version := h.version
  phnum_pos := h.phnum.1
  phnum_le := h.phnum.2
  phentsize := h.phentsize
  phtab_lt := lt_of_le_of_lt h.phtab hf
  phtab_le := by
    intro n hn
    cases hn
    exact h.phtab

theorem exists_loadOrder (phdrs : List Phdr) : ∃ loads, IsLoadOrder phdrs loads := by
  have hlt : ∀ i ∈ loadIdxs phdrs 0, i < phdrs.length := fun i hi =>
    (hdr_of_load (mem_loadIdxs_zero.mp hi)).1
  rcases sortLoads_eq hlt (pairwise_loadIdxs phdrs 0) with ⟨loads, -, hperm, hpair⟩
  exact ⟨loads, fun i => hperm.mem_iff.trans mem_loadIdxs_zero, hpair⟩

theorem Loadable.table {arch : Arch} {pg : PageSize} {f : Bytes} (hf : f.length < 2 ^ 64)
    (h : Loadable arch pg f) : ∃ loads, LoadTable pg (some f.length) (phdrsAt f) loads := by
  rcases exists_loadOrder (phdrsAt f) with ⟨loads, horder⟩
  refine ⟨loads, ?_, ?_, ?_, ?_, horder.mem_iff, horder.sorted, h.apart loads horder⟩
  · intro ph hph htype
    have hload := h.load ph hph htype
    refine ⟨hload.filesz_le, hload.align, hload.mem_lt, lt_of_le_of_lt hload.file_le hf, ?_,
      hload.congr⟩
    intro n hn
    cases hn
    exact hload.file_le
  · intro ph hph htype
    obtain ⟨hpos, hle, hfits⟩ := h.interp ph hph htype
    refine ⟨hpos, hle, ?_⟩
    intro n hn
    cases hn
    exact ⟨lt_of_le_of_lt hfits hf, hfits⟩
  · rw [interpCount_eq]
    exact h.interp_one
  · rintro rfl
    obtain ⟨ph, hph, htype⟩ := h.some_load
    obtain ⟨i, hi⟩ := List.getElem?_of_mem hph
    exact absurd ((horder.mem_iff i).mpr ⟨ph, hi, htype⟩) (by simp)

theorem eval_readExactAt {ε : Type} {f : Bytes} {src : Source} {off n : Nat} (g : Error → ε)
    (h : off + n ≤ f.length) :
    ((readExactAt src off n).mapErr g).eval (I := Host) (sliceHost f) =
      some (ok ⟨bytesAt f off n, length_bytesAt h⟩) := by
  simp only [readExactAt, ask, Prog.mapErr, eval, sliceHost, dif_pos h, ofExcept_ok, mapErr_ok]

/-- A read past the end of the file is an error. -/
theorem eval_readExactAt_past {ε : Type} {f : Bytes} {src : Source} {off n : Nat} (g : Error → ε)
    (h : ¬ off + n ≤ f.length) :
    ((readExactAt src off n).mapErr g).eval (I := Host) (sliceHost f) =
      some (err (g Error.ENOEXEC)) := by
  simp only [readExactAt, ask, Prog.mapErr, eval, sliceHost, dif_neg h, ofExcept_error, mapErr_err]

/-- `count` entries of the program header table, from entry `i` on, are inside the
    file. -/
def TableInside (f : Bytes) (ehdr : Ehdr) (i count : Nat) : Prop :=
  ∀ k < i + count, i ≤ k → ehdr.ePhoff + k * ehdr.ePhentsize + PHDR_SIZE ≤ f.length

instance (f : Bytes) (ehdr : Ehdr) (i count : Nat) : Decidable (TableInside f ehdr i count) :=
  inferInstanceAs (Decidable (∀ k < i + count, _))

theorem tableInside_succ {f : Bytes} {ehdr : Ehdr} {i n : Nat} :
    TableInside f ehdr i (n + 1) ↔
      ehdr.ePhoff + i * ehdr.ePhentsize + PHDR_SIZE ≤ f.length ∧ TableInside f ehdr (i + 1) n := by
  constructor
  · exact fun h => ⟨h i (by omega) le_rfl, fun k hk hi => h k (by omega) (by omega)⟩
  · rintro ⟨hfirst, hrest⟩ k hk hi
    rcases Nat.eq_or_lt_of_le hi with rfl | hlt
    · exact hfirst
    · exact hrest k (by omega) hlt

/-- A table that ends in the file is inside it. -/
theorem tableInside_of_le {f : Bytes} {ehdr : Ehdr} {i n : Nat}
    (hent : PHDR_SIZE ≤ ehdr.ePhentsize)
    (hle : ehdr.ePhoff + (i + n) * ehdr.ePhentsize ≤ f.length) : TableInside f ehdr i n := by
  intro k hk _
  have hnext : (k + 1) * ehdr.ePhentsize ≤ (i + n) * ehdr.ePhentsize :=
    Nat.mul_le_mul_right _ (by omega)
  rw [Nat.add_mul, Nat.one_mul] at hnext
  omega

/-- The loop over the header table reads all of it, or meets the end of the file. -/
theorem eval_readPhdrs (f : Bytes) (src : Source) {ehdr : Ehdr} (hent : 0 < ehdr.ePhentsize)
    (n i : Nat) (hlt : ehdr.ePhoff + (i + n) * ehdr.ePhentsize < 2 ^ 64) :
    (readPhdrs src ehdr n i).eval (I := Host) (sliceHost f) =
      some (if TableInside f ehdr i n then ok (phdrsFrom f ehdr i n)
        else err (.malformed "truncated program header table")) := by
  induction n generalizing i with
  | zero =>
    have hempty : TableInside f ehdr i 0 := fun k hk hi => absurd hi (by omega)
    rw [if_pos hempty]
    rfl
  | succ n ih =>
    have hi : (i + 1) * ehdr.ePhentsize ≤ (i + (n + 1)) * ehdr.ePhentsize :=
      Nat.mul_le_mul_right _ (by omega)
    rw [Nat.add_mul, Nat.one_mul] at hi
    have hrest := ih (i + 1) (by rwa [show i + 1 + n = i + (n + 1) by omega])
    rw [readPhdrs, U64.mul_of_lt (by omega), lift_ok_bind, U64.add_of_lt (by omega), lift_ok_bind]
    simp only [tableInside_succ]
    by_cases hfit : ehdr.ePhoff + i * ehdr.ePhentsize + PHDR_SIZE ≤ f.length
    · refine (eval_bind_ok (I := Host) _ _ (eval_readExactAt _ hfit)).trans ?_
      rw [Phdr.parse_eq (length_bytesAt hfit), mapErr_ok, lift_ok_bind, phdrAt_bytesAt, eval_bind,
        hrest]
      by_cases htable : TableInside f ehdr (i + 1) n
      · rw [if_pos htable, if_pos ⟨hfit, htable⟩]
        rfl
      · rw [if_neg htable, if_neg (fun h => htable h.2)]
    · rw [eval_bind, eval_readExactAt_past _ hfit, if_neg (fun h => hfit h.1)]

/-- The checks of `Image::parse`, over the bytes of a file. -/
def parseBytes (arch : Arch) (pg : PageSize) (size : Option Nat) (f : Bytes) :
    Outcome Reject Image := do
  guardErr (EHDR_SIZE ≤ f.length) .notElf
  checkIdent (ehdrAt f)
  checkEhdr arch (ehdrAt f)
  checkPhtab (ehdrAt f) size
  guardErr (TableInside f (ehdrAt f) 0 (ehdrAt f).ePhnum)
    (.malformed "truncated program header table")
  assemble (ehdrAt f) (phdrsAt f) pg.bytes size

/-- **The parser, run on a file, is its checks over the bytes.** -/
theorem eval_parse (arch : Arch) (src : Source) (pg : PageSize) (f : Bytes) :
    (Image.parse arch src pg.bytes).eval (I := Host) (sliceHost f) =
      some (parseBytes arch pg src.size f) := by
  by_cases hlong : EHDR_SIZE ≤ f.length
  · have hread : 0 + EHDR_SIZE ≤ f.length := by rw [Nat.zero_add]; exact hlong
    rw [parseBytes, guardErr_of hlong, ok_bind]
    refine (eval_bind_ok (I := Host) _ _ (eval_readExactAt _ hread)).trans ?_
    rw [Ehdr.parse_eq (length_bytesAt hread), mapErr_ok, lift_ok_bind, ehdrAt_bytesAt]
    refine eval_bind_some (I := Host) _ rfl fun _ hid => ?_
    refine eval_bind_some (I := Host) _ rfl fun _ heh => ?_
    refine eval_bind_some (I := Host) _ rfl fun _ htab => ?_
    have hheader : HeaderOk arch src.size (ehdrAt f) := by
      refine (checkHeader_eq_ok (u := ()) (length_ident f hlong)).mp ?_
      simp only [hid, heh, htab, ok_bind]
    have hphdrs := eval_readPhdrs f src (lt_of_lt_of_le (by decide) hheader.phentsize)
      (ehdrAt f).ePhnum 0 (by rw [Nat.zero_add]; exact hheader.phtab_lt)
    refine (eval_bind_ok (I := Host) (a := ()) _ _ rfl).trans ?_
    rw [eval_bind, hphdrs]
    by_cases hin : TableInside f (ehdrAt f) 0 (ehdrAt f).ePhnum
    · rw [if_pos hin, guardErr_of hin, ok_bind]
      rfl
    · rw [if_neg hin, guardErr_of_not hin, err_bind]
  · have hread : ¬ 0 + EHDR_SIZE ≤ f.length := by rw [Nat.zero_add]; exact hlong
    rw [parseBytes, guardErr_of_not hlong, err_bind]
    exact (eval_bind _ _ _).trans (by rw [eval_readExactAt_past _ hread])

/-- A file whose header passes and whose table can be loaded is accepted. -/
theorem parseSlice_of_table {arch : Arch} {pg : PageSize} {f : Bytes} {loads : List Nat}
    (hpresent : EHDR_SIZE ≤ f.length) (hheader : HeaderOk arch (some f.length) (ehdrAt f))
    (htable : LoadTable pg (some f.length) (phdrsAt f) loads) :
    parseSlice arch f pg = some (ok (imageOf (ehdrAt f) (phdrsAt f) loads)) := by
  have hchecks := (checkHeader_eq_ok (u := ()) (length_ident f hpresent)).mpr hheader
  simp only [bind_eq_ok] at hchecks
  obtain ⟨_, hid, _, heh, htab⟩ := hchecks
  have hinside : TableInside f (ehdrAt f) 0 (ehdrAt f).ePhnum :=
    tableInside_of_le hheader.phentsize (by rw [Nat.zero_add]; exact hheader.phtab_le _ rfl)
  have hassemble : assemble (ehdrAt f) (phdrsAt f) pg.bytes (some f.length) =
      ok (imageOf (ehdrAt f) (phdrsAt f) loads) := (assemble_eq_ok pg).mpr ⟨loads, htable, rfl⟩
  rw [parseSlice, eval_parse, parseBytes, guardErr_of hpresent, ok_bind, hid, ok_bind, heh, ok_bind,
    sliceSource, htab, ok_bind, guardErr_of hinside, ok_bind, hassemble]

/-- A loadable file is accepted. -/
theorem Loadable.parse {arch : Arch} {pg : PageSize} {f : Bytes} (hf : f.length < 2 ^ 64)
    (h : Loadable arch pg f) : ∃ image, parseSlice arch f pg = some (ok image) := by
  obtain ⟨loads, htable⟩ := h.table hf
  exact ⟨_, parseSlice_of_table h.present (h.header hf) htable⟩

/-- **The accepted format.**  The parser returns an image exactly for the
    loadable files, and the image is a view of the file. -/
theorem parseSlice_ok_iff_loadable (arch : Arch) (pg : PageSize) (f : Slice) :
    ((∃ image, parseSlice arch f.val pg = some (ok image)) ↔ Loadable arch pg f.val) ∧
      ∀ image, parseSlice arch f.val pg = some (ok image) → View pg f.val image := by
  refine ⟨⟨?_, fun h => h.parse f.property⟩, fun image h => (decoded_of_parseSlice h).view⟩
  rintro ⟨image, h⟩
  exact (decoded_of_parseSlice h).loadable

end ElfLoader.Elf
