import ElfLoader.Implement
import ElfLoader.Reservation

/-!
# What the loader asks of the system

The arguments of the calls, whatever the files hold: reads go to the image that is being
loaded and start inside the address space, mappings of a file are mappings of that image,
a fixed mapping is never at address 0, protections are combinations of the three bits, and
the ranges whose protection changes are made of whole pages.  Loading writes no stack, and
building a stack takes no memory.
-/

namespace ElfLoader.Loader

open ElfLoader Outcome Prog Elf Layout Reservation
open ElfLoader.AddressSpace (FillCall)
open ElfLoader.Auxv hiding alignDown

/-- A range that is granted does not start at 0. -/
def Nonzero : (op : HostOp) → op.Res → Prop
  | .vm (.map .anywhere _ _ _), (.ok raw : Except Error Nat) => raw ≠ 0
  | .vm (.map (.hint _) _ _ _), (.ok raw : Except Error Nat) => raw ≠ 0
  | _, _ => True

/-- The answers the arguments depend on. -/
def Grants (pg : PageSize) (op : HostOp) (r : op.Res) : Prop :=
  Granted pg (2 ^ 64) op r ∧ Nonzero op r

/-- Where a mapping is asked for; 0 leaves it to the system. -/
def Where.addr : Where → Nat
  | .anywhere => 0
  | .hint a => a
  | .exact a => a

/-- A range of whole pages inside the address space. -/
structure PageRange (pg : PageSize) (a len : Nat) : Prop where
  dvd_addr : pg.bytes ∣ a
  dvd_len : pg.bytes ∣ len
  fits : a + len ≤ 2 ^ 64
  len_lt : len < 2 ^ 64

/-- The calls for the image `src`, which can be mapped from `fd`. -/
def LoadCall (pg : PageSize) (src : Source) (fd : Option Int) : HostOp → Prop
  | .vm (.map place len prot m) =>
      PageRange pg (Where.addr place) len ∧ place ≠ .exact 0 ∧ prot < 8 ∧
        ∀ fd' off, m = .file fd' off → fd = some fd' ∧ off < 2 ^ 64
  | .vm (.unmap a len) => PageRange pg a len
  | .vm (.protect a len prot) => PageRange pg a len ∧ prot < 8
  | .vm (.write a data) => a + data.length ≤ 2 ^ 64
  | .vm (.zero a len) => a + len ≤ 2 ^ 64
  | .vm (.icacheSync a len) => a + len ≤ 2 ^ 64
  | .vm (.allocAligned align len) => IsAlign pg align ∧ len < 2 ^ 64
  | .vm (.freeAligned ..) => True
  | .readExactAt src' off n => src' = src ∧ off < 2 ^ 64 ∧ n ≤ COPY_CHUNK
  | .tryReserve _ => True
  | .openPath _ => False
  | .stackWrite .. => False

/-- The calls that only read the image. -/
def ReadCall (src : Source) : HostOp → Prop
  | .readExactAt src' off n => src' = src ∧ off < 2 ^ 64 ∧ n ≤ COPY_CHUNK
  | .tryReserve _ => True
  | _ => False

theorem ReadCall.loadCall {pg : PageSize} {src : Source} (fd : Option Int) {op : HostOp}
    (h : ReadCall src op) : LoadCall pg src fd op := by
  cases op with
  | readExactAt src' off n => exact h
  | tryReserve n => trivial
  | vm op => exact h.elim
  | openPath path => exact h.elim
  | stackWrite a data => exact h.elim

theorem ReadCall.fillCall {src : Source} {op : HostOp} (h : ReadCall src op) : FillCall op := by
  cases op with
  | readExactAt src' off n => trivial
  | tryReserve n => trivial
  | vm op => exact h.elim
  | openPath path => exact h.elim
  | stackWrite a data => exact h.elim

theorem protOf_lt (ph : Phdr) : protOf ph < 8 := by
  unfold protOf
  cases ph.isRead <;> cases ph.isWrite <;> cases ph.isExec <;> decide

theorem openProt_lt (pg : PageSize) (bias : Nat) (ph : Phdr) : openProt pg bias ph < 8 := by
  unfold openProt
  split
  · exact Nat.or_lt_two_pow (n := 3) (protOf_lt ph) (by decide)
  · exact protOf_lt ph

/-! ### Reading headers -/

section Headers

variable {A : (op : HostOp) → op.Res → Prop} {pg : PageSize} {src : Source}

theorem calls_readExactAt {off n : Nat} (hoff : off < 2 ^ 64) (hn : n ≤ COPY_CHUNK) :
    Calls A (ReadCall src) (readExactAt src off n) fun _ => True :=
  calls_ask (I := Host) ⟨rfl, hoff, hn⟩ fun _ _ _ _ => trivial

theorem calls_tryReserve {ε : Type} (n : Nat) (e : ε) :
    Calls A (ReadCall src) (tryReserve n e) fun _ => True :=
  calls_ask (I := Host) trivial fun _ _ _ _ => trivial

theorem U64.add_lt {ε : Type} {a b c : Nat} (h : (U64.add a b : Outcome ε Nat) = ok c) :
    c < 2 ^ 64 := by
  unfold U64.add at h
  split at h
  · cases h
    assumption
  · cases h

theorem calls_readPhdrs (ehdr : Ehdr) (n i : Nat) :
    Calls A (ReadCall src) (readPhdrs src ehdr n i) fun _ => True := by
  induction n generalizing i with
  | zero => trivial
  | succ n ih =>
    apply (calls_lift fun _ _ => trivial).bind
    intro skip _
    apply (calls_lift (F := (· < 2 ^ 64)) fun off hoff => U64.add_lt hoff).bind
    intro off hoff
    apply ((calls_readExactAt hoff (by decide)).mapErr _).bind
    intro ent _
    apply (calls_lift fun _ _ => trivial).bind
    intro ph _
    apply (ih (i + 1)).bind
    intro rest _
    trivial

theorem calls_parse (arch : Arch) (pageSize : Nat) :
    Calls A (ReadCall src) (Image.parse arch src pageSize) fun _ => True := by
  apply ((calls_readExactAt (by decide) (by decide)).mapErr _).bind
  intro raw _
  apply (calls_lift fun _ _ => trivial).bind
  intro ehdr _
  apply (calls_lift fun _ _ => trivial).bind
  intro _ _
  apply (calls_lift fun _ _ => trivial).bind
  intro _ _
  apply (calls_lift fun _ _ => trivial).bind
  intro _ _
  apply (calls_tryReserve _ _).bind
  intro _ _
  apply (calls_readPhdrs ehdr _ _).bind
  intro phdrs _
  exact calls_lift fun _ _ => trivial

/-- What is known of an image once it has been parsed. -/
structure Parsed (pg : PageSize) (image : Image) : Prop where
  valid : image.Valid pg
  interp : ∀ ph, image.interp = some ph → ph.pOffset < 2 ^ 64 ∧ ph.pFilesz ≤ INTERP_MAX

theorem Elf.Decoded.parsed {R : Nat → Bytes → Prop} {arch : Arch} {size : Option Nat}
    {image : Image} (h : Decoded R arch pg size image) : Parsed pg image where
  valid := h.valid
  interp := by
    intro ph hph
    rw [h.image_eq] at hph
    have hlast : lastOf PT_INTERP image.phdrs = some ph := (collect_interp image.phdrs).symm.trans hph
    have hmem : ph ∈ image.phdrs.filter (·.pType = PT_INTERP) := List.mem_of_getLast? hlast
    have htype : ph.pType = PT_INTERP := by simpa using (List.mem_filter.mp hmem).2
    have hph := List.mem_of_mem_filter hmem
    exact ⟨(h.valid.bounded ph hph).offset, (h.table.interp_ok ph hph htype).filesz_le⟩

theorem calls_parseImage (arch : Arch) :
    Calls A (ReadCall src)
      ((Image.parse arch src pg.bytes).mapErr Reject.toError) (Parsed pg) := by
  have hreads : Reads (fun (_ : Unit) op r _ => A op r) (fun _ _ => True) src (fun _ => True)
      (fun _ _ => True) := ⟨fun _ _ _ _ => ⟨trivial, fun _ _ _ => trivial⟩, fun _ _ _ _ _ _ _ => trivial⟩
  have hvalue := wp_parse (X := True) hreads arch pg (s := ()) trivial
  have hcalls : Calls A (ReadCall src) (Image.parse arch src pg.bytes) fun _ => True :=
    calls_parse arch pg.bytes
  have hboth := hcalls.wp (H := fun (_ : Unit) op r _ => A op r) (fun _ _ _ _ h => h) hvalue
  apply Calls.mapErr
  apply wp_mono (wp_pre_mono hboth fun _ _ h => h.2)
  intro s r hr
  cases r with
  | ok image => exact Elf.Decoded.parsed hr.1.2
  | err e => trivial
  | panic => trivial

theorem calls_interpPathOf {image : Image} (himage : Parsed pg image) :
    Calls A (ReadCall src) (Program.interpPathOf image src) fun _ => True := by
  unfold Program.interpPathOf
  split
  · refine Calls.bind (F := fun _ => True) ?_ fun _ _ => trivial
    apply (calls_lift (F := fun ph => image.interp = some ph) ?_).bind
    · intro ph hph
      rcases himage.interp ph hph with ⟨hoff, hlen⟩
      apply (calls_tryReserve _ _).bind
      intro _ _
      apply (calls_readExactAt hoff (hlen.trans (by decide))).bind
      intro buf _
      split
      · trivial
      · trivial
      · trivial
    · intro ph hph
      cases hinterp : image.interp with
      | none =>
        rw [hinterp] at hph
        cases hph
      | some ph' =>
        rw [hinterp] at hph
        cases hph
        rfl
  · trivial

end Headers

/-! ### Filling a reservation -/

section Fill

variable {A : (op : HostOp) → op.Res → Prop} {pg : PageSize} {src : Source} {fd : Option Int}
  {image : Image} {p : LoadPlan} {i : Nat}

theorem calls_vm {ε α : Type} {P : HostOp → Prop} {op : VmOp} {meaning : op.Res → Outcome ε α}
    (hop : P (.vm op)) : Calls A P (ask (I := Host) (.vm op) meaning) fun _ => True :=
  calls_ask (I := Host) hop fun _ _ _ _ => trivial

/-- A segment of a plan does not start at 0, if its reservation does not. -/
theorem start_ne_zero (hp : Placed pg image p) (hv : image.Valid pg)
    (hres : p.reserveAddr ≠ 0) (hi : i ∈ image.loads) : (image.seg i).start pg + p.bias ≠ 0 := by
  have hin := hp.seg_inside hv hi
  omega

theorem pageRange_pages (hp : Placed pg image p) (hv : image.Valid pg) (hi : i ∈ image.loads) :
    PageRange pg (pagesOf pg p.bias (image.seg i)).1 (pagesOf pg p.bias (image.seg i)).2 := by
  have hfin := hp.seg_fin_lt hv hi
  unfold pagesOf
  split
  · refine ⟨?_, ?_, ?_, ?_⟩
    · exact Nat.dvd_add (dvd_roundDown _ _) hp.dvd_bias
    · exact Nat.dvd_sub (dvd_roundUp _ _) (dvd_roundDown _ _)
    · omega
    · omega
  · exact ⟨Nat.dvd_zero _, Nat.dvd_zero _, by decide, by decide⟩

/-- The pages with bytes of the file, and the pages behind them. -/
theorem pageRange_file (hp : Placed pg image p) (hv : image.Valid pg) (hi : i ∈ image.loads) :
    PageRange pg ((image.seg i).start pg + p.bias)
      (fileFin pg (image.seg i) + p.bias - ((image.seg i).start pg + p.bias)) := by
  rcases hv.seg_ok hi with ⟨size, hok⟩
  have hfin := hp.seg_fin_lt hv hi
  have hle := fileFin_le_fin hok
  have hfile := start_le_fileFin pg (image.seg i)
  have hstart : pg.bytes ∣ (image.seg i).start pg + p.bias :=
    Nat.dvd_add (dvd_start pg _) hp.dvd_bias
  have hend : pg.bytes ∣ fileFin pg (image.seg i) + p.bias := Nat.dvd_add (dvd_fileFin pg _) hp.dvd_bias
  exact ⟨hstart, Nat.dvd_sub hend hstart, by omega, by omega⟩

theorem pageRange_anon (hp : Placed pg image p) (hv : image.Valid pg) (hi : i ∈ image.loads) :
    PageRange pg (fileFin pg (image.seg i) + p.bias)
      ((image.seg i).fin pg - fileFin pg (image.seg i)) := by
  rcases hv.seg_ok hi with ⟨size, hok⟩
  have hfin := hp.seg_fin_lt hv hi
  have hle := fileFin_le_fin hok
  refine ⟨Nat.dvd_add (dvd_fileFin pg _) hp.dvd_bias, ?_, by omega, by omega⟩
  exact Nat.dvd_sub (dvd_fin pg _) (dvd_fileFin pg _)

/-- A call that fills a reservation and, where `P` holds, one for the image. -/
def FillsImage (pg : PageSize) (src : Source) (fd : Option Int) (P : Prop) (op : HostOp) : Prop :=
  FillCall op ∧ (P → LoadCall pg src fd op)

theorem ReadCall.fillsImage {P : Prop} {op : HostOp} (h : ReadCall src op) :
    FillsImage pg src fd P op :=
  ⟨h.fillCall, fun _ => h.loadCall fd⟩

/-- No mapping is asked for at address 0, unless the reservation starts there. -/
theorem calls_fillMapped (hv : image.Valid pg) (hp : Placed pg image p) (fd : Int) :
    Calls A (FillsImage pg src (some fd) (p.reserveAddr ≠ 0)) (fillMapped image fd p) fun _ => True := by
  have htail {i : Nat} (hi : i ∈ image.loads) : (image.seg i).pVaddr + p.bias + (image.seg i).pFilesz +
      (fileFin pg (image.seg i) + p.bias - ((image.seg i).pVaddr + p.bias + (image.seg i).pFilesz)) ≤
        2 ^ 64 := by
    rcases hv.seg_ok hi with ⟨size, hok⟩
    have hfin := hp.seg_fin_lt hv hi
    have hmem := mem_le_fin pg (image.seg i)
    have hfile := hok.filesz_le
    have hle := fileFin_le_fin hok
    omega
  rw [fillMapped_eq hp]
  apply (calls_forM ?_).bind
  · intro _ _
    apply calls_forM
    intro i hi
    rw [syncMappedSegment_eq hv hi]
    split
    · exact calls_vm ⟨trivial, fun _ => htail hi⟩
    · trivial
  intro i hi
  rcases hv.seg_ok hi with ⟨size, hok⟩
  have hfile := hok.file_lt
  rw [fillMappedSegment_eq hv hp hi, mapFilePart_segOf, clearTail_segOf, mapAnonPart_segOf,
    closeWriteWindow_eq hv hp hi]
  apply Calls.bind (F := fun _ => True)
  · split
    · refine Calls.bind (calls_vm ⟨trivial, ?_⟩) fun _ _ => trivial
      intro hres
      refine ⟨pageRange_file hp hv hi, ?_, openProt_lt _ _ _, ?_⟩
      · intro heq
        exact start_ne_zero hp hv hres hi (Where.exact.inj heq)
      · rintro fd' off ⟨⟩
        exact ⟨rfl, by omega⟩
    · trivial
  intro _ _
  apply Calls.bind (F := fun _ => True)
  · split
    · exact calls_vm ⟨trivial, fun _ => htail hi⟩
    · trivial
  intro _ _
  apply Calls.bind (F := fun _ => True)
  · split
    · refine Calls.bind (calls_vm ⟨trivial, ?_⟩) fun _ _ => trivial
      intro hres
      refine ⟨pageRange_anon hp hv hi, ?_, protOf_lt _, ?_⟩
      · have hle := start_le_fileFin pg (image.seg i)
        have hne := start_ne_zero hp hv hres hi
        intro heq
        have hzero : fileFin pg (image.seg i) + p.bias = 0 := Where.exact.inj heq
        omega
      · rintro fd' off ⟨⟩
    · trivial
  intro _ _
  split
  · apply Calls.bind (calls_vm ⟨trivial, fun _ => ⟨pageRange_pages hp hv hi, protOf_lt _⟩⟩)
    intro r _
    exact calls_lift fun _ _ => trivial
  · trivial

theorem calls_fillCopied (hv : image.Valid pg) (hp : Placed pg image p) (src : Source) :
    Calls A (FillsImage pg src fd True) (fillCopied image src pg.bytes p) fun _ => True := by
  rw [fillCopied_eq hv hp]
  apply ((calls_tryReserve _ _).weaken fun _ => ReadCall.fillsImage).bind
  intro _ _
  apply (calls_forM ?_).bind
  · intro _ _
    apply (calls_forM ?_).bind
    · intro _ _
      apply calls_forM
      intro i hi
      rw [protectSegment_eq hv hp hi]
      exact Calls.bind (calls_vm ⟨trivial, fun _ => ⟨pageRange_pages hp hv hi, protOf_lt _⟩⟩)
        fun _ _ => trivial
    · intro i hi
      exact calls_vm ⟨trivial, fun _ => (pageRange_pages hp hv (List.mem_of_mem_filter hi)).fits⟩
  intro i hi
  rcases hv.seg_ok hi with ⟨size, hok⟩
  have hfin := hp.seg_fin_lt hv hi
  have hmem := mem_le_fin pg (image.seg i)
  have hfile := hok.filesz_le
  have hoff := hok.file_lt
  rw [copySegment_eq hv hp hi]
  apply Calls.bind (F := fun _ => True)
  · apply wp_copyLoop_chunks (fun _ _ => True) hoff (by omega) ?_ trivial (Nat.zero_le _)
    intro done n s hn hchunk hle _
    have hread : Calls A (ReadCall src)
        (readExactAt src ((image.seg i).pOffset + done) n) fun _ => True :=
      calls_readExactAt (by omega) hchunk
    refine (hread.weaken fun _ => ReadCall.fillsImage).bind fun data _ => calls_vm ⟨trivial, ?_⟩
    intro _
    change _ + data.val.length ≤ _
    rw [data.property]
    omega
  intro _ _
  unfold clearRest
  split
  · apply Calls.bind (F := fun len =>
      (image.seg i).pVaddr + p.bias + (image.seg i).pFilesz + len ≤ 2 ^ 64)
    · apply calls_lift
      intro len hlen
      rw [U64.sub_eq_ok] at hlen
      omega
    · intro len hlen
      exact calls_vm ⟨trivial, fun _ => hlen⟩
  · trivial

end Fill

/-! ### The whole load -/

section Load

variable {pg : PageSize} {src : Source} {fd : Option Int} {image : Image}

/-- The mappings of the image are whole pages inside the address space. -/
def Returnable (pg : PageSize) (l : Loaded) : Prop :=
  l.allocated = false → PageRange pg l.plan.reserveAddr l.plan.reserveLen

theorem calls_unload {ε : Type} {A : (op : HostOp) → op.Res → Prop} {l : Loaded}
    (hl : Returnable pg l) :
    Calls A (LoadCall pg src fd) (l.unload : Prog Host ε Unit) fun _ => True := by
  unfold Loaded.unload
  split
  · exact calls_vm trivial
  · rename_i hmapped
    exact Calls.bind (calls_vm (hl (by simpa using hmapped))) fun _ _ => trivial

theorem calls_fillOrUnload {A : (op : HostOp) → op.Res → Prop} {l : Loaded}
    {fill : Prog Host Error Unit} (hl : Returnable pg l)
    (hfill : Calls A (LoadCall pg src fd) fill fun _ => True) :
    Calls A (LoadCall pg src fd) (fillOrUnload l fill) fun l' => l' = l := by
  apply hfill.attempt.bind
  intro r _
  cases r with
  | ok u => rfl
  | error e => exact (calls_unload hl).bind fun _ _ => trivial

theorem calls_makePlan {A : (op : HostOp) → op.Res → Prop} {pl : Placement}
    (hv : image.Valid pg) (hspan : SpanFits pg image) (hpage : pl.PageAligned pg) :
    Calls A (ReadCall src) (makePlan image pg.bytes pl) fun p =>
      p = planFor pg image pl ∧ Placed pg image p := by
  apply Calls.bind (F := fun _ => True)
  · exact calls_ask (I := Host) trivial fun _ _ _ _ => trivial
  intro reserved _
  apply calls_lift
  intro p hplan
  rcases (plan_eq_ok hv hspan.1 hspan.2).mp hplan with ⟨-, hfits, hend, rfl⟩
  exact ⟨rfl, placed_planFor hv hspan.1 hfits hend hpage⟩

/-- What is known of the placement of a reservation that was granted. -/
structure GrantedAt (pg : PageSize) (image : Image) (pl : Placement) : Prop where
  page : pl.PageAligned pg
  range : PageRange pg (planFor pg image pl).reserveAddr (planFor pg image pl).reserveLen

theorem calls_reserveMapped (hv : image.Valid pg) (hspan : SpanFits pg image) :
    Calls (Grants pg) (LoadCall pg src fd)
      (reserveMapped image pg.bytes (image.lo pg) (needOf pg image))
      fun pl => GrantedAt pg image pl ∧ (planFor pg image pl).reserveAddr ≠ 0 := by
  have hlink : pg.bytes ∣ image.hi pg - image.lo pg := Nat.dvd_sub hv.dvd_hi hv.dvd_lo
  have hlt : image.hi pg - image.lo pg < 2 ^ 64 := (Nat.sub_le _ _).trans_lt hspan.1
  have hlo := hv.lo_le_hi
  have hhi := hspan.1
  rw [reserveMapped_eq hv hspan]
  split
  · apply Calls.bind (F := fun raw => pg.bytes ∣ raw ∧ raw + needOf pg image ≤ 2 ^ 64 ∧ raw ≠ 0)
    · apply calls_ask (I := Host)
      · refine ⟨⟨Nat.dvd_zero _, dvd_needOf hv, ?_, hspan.2⟩, ?_, by decide, ?_⟩
        · rw [Where.addr, Nat.zero_add]
          exact hspan.2.le
        · rintro ⟨⟩
        · rintro fd' off ⟨⟩
      · intro r raw hr hraw
        cases r with
        | error e => cases hraw
        | ok raw' =>
          cases hraw
          exact ⟨hr.1.1, hr.1.2, hr.2⟩
    · rintro raw ⟨hdvd, hle, hne⟩
      exact ⟨⟨hdvd, hdvd, dvd_needOf hv, hle, hspan.2⟩, hne⟩
  · apply Calls.bind (F := fun got => pg.bytes ∣ got ∧
      got + (image.hi pg - image.lo pg) ≤ 2 ^ 64 ∧ got ≠ 0)
    · apply calls_ask (I := Host)
      · refine ⟨⟨hv.dvd_lo, hlink, ?_, hlt⟩, ?_, by decide, ?_⟩
        · rw [Where.addr]
          omega
        · rintro ⟨⟩
        · rintro fd' off ⟨⟩
      · intro r raw hr hraw
        cases r with
        | error e => cases hraw
        | ok raw' =>
          cases hraw
          exact ⟨hr.1.1, hr.1.2, hr.2⟩
    · rintro got ⟨hdvd, hle, hne⟩
      split
      · exact Calls.bind (calls_vm ⟨hdvd, hlink, hle, hlt⟩) fun _ _ => trivial
      · rename_i heq
        have hlo : got = image.lo pg := by simpa using heq
        rw [hlo] at hne hle
        exact ⟨⟨trivial, hv.dvd_lo, hlink, hle, hlt⟩, hne⟩

theorem calls_loadMapped (hv : image.Valid pg) (fd : Int) :
    Calls (Grants pg) (LoadCall pg src (some fd)) (loadMapped image fd pg.bytes)
      (Returnable pg) := by
  rw [loadMapped_eq hv]
  split
  · rename_i hspan
    apply (calls_reserveMapped hv hspan).bind
    rintro pl ⟨hpl, hne⟩
    apply ((calls_makePlan hv hspan hpl.page).weaken fun _ => ReadCall.loadCall (some fd)).bind
    rintro p ⟨rfl, hp⟩
    have hfill : Calls (Grants pg) (LoadCall pg src (some fd))
        (fillMapped image fd (planFor pg image pl)) fun _ => True :=
      (calls_fillMapped hv hp fd).weaken fun _ h => h.2 hne
    refine (calls_fillOrUnload (fun _ => hpl.range) hfill).mono ?_
    rintro l rfl _
    exact hpl.range
  · trivial

theorem calls_loadCopied (hv : image.Valid pg) :
    Calls (Grants pg) (LoadCall pg src fd) (loadCopied image src pg.bytes) (Returnable pg) := by
  rw [loadCopied_eq hv]
  split
  · trivial
  · split
    · rename_i hspan
      apply Calls.bind (F := fun raw => pg.bytes ∣ raw)
      · apply calls_ask (I := Host)
        · exact ⟨isAlign_alignOf hv, hspan.2⟩
        · intro r raw hr hraw
          cases r with
          | error e => cases hraw
          | ok raw' =>
            cases hraw
            exact hr.1.1
      · intro raw hraw
        have hpage : (Placement.at raw).PageAligned pg := hraw
        apply ((calls_makePlan hv hspan hpage).weaken fun _ => ReadCall.loadCall fd).bind
        rintro p ⟨rfl, hp⟩
        have hfill : Calls (Grants pg) (LoadCall pg src fd)
            (fillCopied image src pg.bytes (planFor pg image (.at raw))) fun _ => True :=
          (calls_fillCopied hv hp src).weaken fun _ h => h.2 trivial
        have hheap : Returnable pg ⟨planFor pg image (.at raw), true⟩ := fun h => absurd h (by simp)
        refine (calls_fillOrUnload hheap hfill).mono ?_
        rintro l rfl
        exact hheap
    · trivial

/-- **The calls of a load.** -/
theorem calls_load (b : Build) (hv : image.Valid b.page) (src : Source) (fd : Option Int) :
    Calls (Grants b.page) (LoadCall b.page src fd) (load b image src fd) (Returnable b.page) := by
  unfold load
  split
  · exact calls_loadMapped hv _
  · exact calls_loadCopied hv

end Load

/-! ### A whole program -/

/-- A call that writes no stack. -/
def OffStack : HostOp → Prop
  | .stackWrite .. => False
  | _ => True

theorem LoadCall.offStack {pg : PageSize} {src : Source} {fd : Option Int} {op : HostOp}
    (h : LoadCall pg src fd op) : OffStack op := by
  cases op with
  | stackWrite a data => exact h
  | _ => trivial

theorem ReadCall.offStack {src : Source} {op : HostOp} (h : ReadCall src op) : OffStack op := by
  cases op with
  | stackWrite a data => exact h
  | _ => trivial

section Program

variable {b : Build}

theorem calls_openPath {A : (op : HostOp) → op.Res → Prop} {P : HostOp → Prop} {path : Bytes}
    (hop : P (.openPath path)) : Calls A P (openPath path) fun _ => True :=
  calls_ask (I := Host) hop fun _ _ _ _ => trivial

theorem calls_loadInterp (path : Bytes) :
    Calls (Grants b.page) OffStack (Program.loadInterp b path) fun _ => True := by
  apply (calls_openPath trivial).bind
  intro o _
  apply ((calls_parseImage b.arch).weaken fun _ => ReadCall.offStack).bind
  intro image himage
  apply (calls_lift (F := fun _ => True) fun _ _ => trivial).bind
  intro _ _
  apply (calls_lift (F := fun _ => True) fun _ _ => trivial).bind
  intro _ _
  apply Calls.bind ((calls_load b himage.valid o.src o.fd).weaken fun _ => LoadCall.offStack)
  intro _ _
  trivial

theorem calls_loadInterpFor {main : Loaded} (hmain : Returnable b.page main)
    (path : Option Bytes) :
    Calls (Grants b.page) OffStack (Program.loadInterpFor b main path) fun _ => True := by
  cases path with
  | none => trivial
  | some path =>
    apply (calls_loadInterp path).attempt.bind
    intro r _
    cases r with
    | ok v => trivial
    | error e =>
      have hunload : Calls (Grants b.page) (LoadCall b.page ⟨0, none⟩ none)
          (main.unload : Prog Host Error Unit) fun _ => True := calls_unload hmain
      apply (hunload.weaken fun _ => LoadCall.offStack).bind
      intro _ _
      trivial

/-- Loading a program writes no stack. -/
theorem calls_loadProgram (path : Bytes) :
    Calls (Grants b.page) OffStack (Program.loadProgram b path) fun _ => True := by
  apply (calls_openPath trivial).bind
  intro o _
  apply ((calls_parseImage b.arch).weaken fun _ => ReadCall.offStack).bind
  intro image himage
  apply (calls_lift (F := fun _ => True) fun _ _ => trivial).bind
  intro _ _
  apply Calls.bind ((calls_interpPathOf himage).weaken fun _ => ReadCall.offStack)
  intro path _
  apply Calls.bind ((calls_load b himage.valid o.src o.fd).weaken fun _ => LoadCall.offStack)
  intro main hmain
  apply (calls_lift (F := fun _ => True) fun _ _ => trivial).bind
  intro _ _
  apply (calls_lift (F := fun _ => True) fun _ _ => trivial).bind
  intro _ _
  apply (calls_loadInterpFor hmain path).bind
  intro _ _
  trivial

end Program

/-! ### Building a stack -/

/-- The calls of `build_stack`. -/
def StackCall : HostOp → Prop
  | .stackWrite .. => True
  | .tryReserve _ => True
  | _ => False

section Stack

variable {ε α : Type} {r : StackRange}

abbrev StackOnly (p : Prog Host ε α) : Prop := Calls (fun _ _ => True) StackCall p fun _ => True

theorem stackOnly_ask {op : HostOp} {meaning : op.Res → Outcome ε α} (h : StackCall op) :
    StackOnly (ask (I := Host) op meaning) :=
  calls_ask (I := Host) h fun _ _ _ _ => trivial

theorem stackOnly_lift (r : Outcome ε α) : StackOnly (liftM r : Prog Host ε α) :=
  calls_lift fun _ _ => trivial

theorem stackOnly_pushBytes (sp : Nat) (data : Bytes) : StackOnly (pushBytes r sp data) := by
  apply (stackOnly_lift _).bind
  intro _ _
  apply (stackOnly_lift _).bind
  intro _ _
  exact (stackOnly_ask (by trivial)).bind fun _ _ => trivial

theorem stackOnly_pushCstr (sp : Nat) (s : Bytes) : StackOnly (pushCstr r sp s) := by
  apply (stackOnly_pushBytes sp [0]).bind
  intro sp _
  split
  · trivial
  · exact stackOnly_pushBytes sp s

theorem stackOnly_pushEach (sp : Nat) (ats : List Nat) (ss : List Bytes) :
    StackOnly (pushEach r sp ats ss) := by
  induction ss generalizing sp ats with
  | nil => trivial
  | cons s rest ih => exact (stackOnly_pushCstr sp s).bind fun a _ => ih a _

theorem stackOnly_pushStrings (sp : Nat) (ss : List Bytes) : StackOnly (pushStrings r sp ss) := by
  apply (stackOnly_ask (by trivial)).bind
  intro _ _
  exact (stackOnly_pushEach sp [] _).bind fun _ _ => trivial

theorem stackOnly_writeWords (a : Nat) (vs : List Nat) : StackOnly (writeWords a vs) := by
  induction vs generalizing a with
  | nil => trivial
  | cons v vs ih =>
    apply (stackOnly_ask (by trivial)).bind
    intro _ _
    exact (stackOnly_lift _).bind fun a _ => ih a

theorem stackOnly_buildStack (argv envp : List Bytes) (aux : AuxvSpec) :
    StackOnly (buildStack r argv envp aux) := by
  apply (stackOnly_lift _).bind
  intro size _
  apply (stackOnly_lift _).bind
  intro _ _
  apply Calls.bind (F := fun _ => True)
  · unfold pushPlatform
    split
    · trivial
    · exact (stackOnly_pushCstr _ _).bind fun _ _ => trivial
  intro platform _
  apply (stackOnly_pushCstr _ _).bind
  intro execfn _
  apply (stackOnly_pushBytes _ _).bind
  intro random _
  apply (stackOnly_pushStrings _ _).bind
  intro envps _
  apply (stackOnly_pushStrings _ _).bind
  intro argvs _
  apply (stackOnly_lift _).bind
  intro block _
  apply (stackOnly_lift _).bind
  intro low _
  apply (stackOnly_lift _).bind
  intro _ _
  apply (stackOnly_writeWords _ _).bind
  intro a _
  apply (stackOnly_writeWords _ _).bind
  intro a _
  apply (stackOnly_writeWords _ _).bind
  intro a _
  apply (stackOnly_writeWords _ _).bind
  intro a _
  apply (stackOnly_writeWords _ _).bind
  intro a _
  exact (stackOnly_writeWords _ _).bind fun _ _ => trivial

end Stack

end ElfLoader.Loader
