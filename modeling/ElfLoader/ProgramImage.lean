import ElfLoader.FailedProgram
import ElfLoader.Implement
import ElfLoader.MemoryImage

/-!
# A program and its interpreter in memory

What `load_program` leaves when it succeeds.  Two images are loaded one after the other,
and the second must spare the first: where files are mapped, a range that is granted has no
mapped page; on the heap, it is in no live block.  So what is in use when an image is loaded
is in use, and the same, afterwards.
-/

namespace ElfLoader.AddressSpace

open ElfLoader Outcome Prog Elf Layout Loader Program

/-- No file can be mapped. -/
def Copies (b : Build) (w : World) : Prop := ∀ path o, w.lookup path = some o → ¬ Mapped b o.fd

/-- What an opener promises: a file has one content, whether it is read or mapped, its size
    is known, and either all files can be mapped or none can. -/
structure Served (b : Build) (w : World) : Prop where
  size : ∀ path o, w.lookup path = some o → o.src.size = some (w.bytes o.src.handle).length
  small : ∀ path o, w.lookup path = some o → (w.bytes o.src.handle).length < 2 ^ 64
  descriptor : ∀ path o, w.lookup path = some o →
    ∀ fd ∈ o.fd, w.fdBytes fd = w.bytes o.src.handle
  oneWay : (∀ path o, w.lookup path = some o → Mapped b o.fd) ∨ Copies b w

/-- The file `o` has the image `image`, and `l` is where it is: every segment shows its bytes,
    and has its protection where files are mapped. -/
structure InMemory (b : Build) (w : World) (o : Opened) (image : Image) (l : Loaded)
    (s : Space) : Prop where
  parsed : parseSlice b.arch (w.bytes o.src.handle) b.page = some (ok image)
  placed : Placed b.page image l.plan
  entry_lt : l.plan.entry < 2 ^ 64
  segs : ∀ ph ∈ image.phdrs, ph.pType = PT_LOAD →
    Reference b.page (w.bytes o.src.handle) l.plan.bias ph s.mem
  prots : Mapped b o.fd → ∀ x, reserveRange l x →
    (∀ ph, Claims b.page image l.plan.bias x ph → s.protAt b.page x = some (protOf ph)) ∧
    ((∀ ph, ¬ Claims b.page image l.plan.bias x ph) → s.protAt b.page x = some PROT_NONE)

/-! ### One image -/

section Image

variable {b : Build} {w : World} {o : Opened} {image : Image} {l : Loaded} {s s' : Space}

theorem Claims.reserved (hv : image.Valid b.page) (hp : Placed b.page image l.plan) {x : Nat}
    {ph : Phdr} (h : Claims b.page image l.plan.bias x ph) : reserveRange l x := by
  rcases h with ⟨hph, htype, hx⟩
  rcases hv.exists_seg hph htype with ⟨i, hi, rfl⟩
  have hin := hp.seg_inside hv hi
  exact ⟨hin.1.trans hx.1, lt_of_lt_of_le hx.2 hin.2⟩

/-- What a segment shows is on its own pages. -/
theorem Reference.congr {pg : PageSize} {f : Bytes} {bias : Nat} {ph : Phdr}
    {mem mem' : Nat → UInt8} (h : Reference pg f bias ph mem) (hdvd : pg.bytes ∣ bias)
    (hle : ph.pFilesz ≤ ph.pMemsz) (hmem : ∀ x, segPages pg bias ph x → mem' x = mem x) :
    Reference pg f bias ph mem' := by
  have hstart : ph.start pg ≤ ph.pVaddr := roundDown_le _ _
  have hfin : ph.pVaddr + ph.pMemsz ≤ ph.fin pg := le_roundUp pg.pos _
  constructor
  · intro k hk
    rw [hmem _ ⟨by omega, by omega⟩]
    exact h.file k hk
  · intro x hlo hhi
    have hhi' := hhi
    rw [roundUp_fin hdvd] at hhi'
    rw [hmem x ⟨by omega, hhi'⟩]
    exact h.zero x hlo hhi

/-- An image stays in memory while its reservation is left alone. -/
theorem InMemory.frame (h : InMemory b w o image l s) (hsame : AgreeOn b.page (reserveRange l) s s') :
    InMemory b w o image l s' where
  parsed := h.parsed
  placed := h.placed
  entry_lt := h.entry_lt
  segs := by
    intro ph hph htype
    have hdec := decoded_of_parseSlice h.parsed
    apply (h.segs ph hph htype).congr h.placed.dvd_bias (hdec.table.load_ok ph hph htype).filesz_le
    intro x hx
    exact hsame.mem x (Claims.reserved hdec.valid h.placed ⟨hph, htype, hx⟩)
  prots := by
    intro hmap x hx
    rw [hsame.prot x hx]
    exact h.prots hmap x hx

end Image

/-! ### What is in use -/

/-- Live blocks have no byte in common. -/
def BlocksApart (s : Space) : Prop :=
  s.blocks.Pairwise fun x y => x.1 + x.2 ≤ y.1 ∨ y.1 + y.2 ≤ x.1

/-- `R` is in use: no page of it is free, and on the heap, it is in a live block. -/
structure InUse (pg : PageSize) (s : Space) (R : Nat → Prop) (heap : Prop) : Prop where
  mapped : ∀ x, R x → s.protAt pg x ≠ none
  block : heap → ∃ blk ∈ s.blocks, ∀ x, R x → Within blk.1 (blk.1 + blk.2) x

section InUse

variable {b : Build} {w : World} {s : Space} {R : Nat → Prop} {path : Bytes} {o : Opened}

theorem InUse.mapping (h : InUse b.page s R (Copies b w)) (hw : Served b w)
    (ho : w.lookup path = some o) : InUse b.page s R (¬ Mapped b o.fd) := by
  refine ⟨h.mapped, fun hnot => h.block ?_⟩
  rcases hw.oneWay with hall | hcopies
  · exact absurd (hall path o ho) hnot
  · exact hcopies

theorem InUse.copies (h : InUse b.page s R (¬ Mapped b o.fd)) (ho : w.lookup path = some o) :
    InUse b.page s R (Copies b w) :=
  ⟨h.mapped, fun hcopies => h.block (hcopies path o ho)⟩

end InUse

theorem BlocksApart.after {pg : PageSize} {w : World} {s : Space} {op : HostOp} {r : op.Res}
    (h : BlocksApart s) (hans : s.Answers pg w op r) : BlocksApart (s.after pg w op r) := by
  unfold BlocksApart at *
  cases op with
  | vm op =>
    cases op with
    | allocAligned align len =>
      cases r with
      | error e => exact h
      | ok raw =>
        rcases hans with ⟨-, -, -, hapart⟩
        exact List.pairwise_cons.mpr ⟨hapart, h⟩
    | freeAligned a len => exact h.sublist List.erase_sublist
    | map place len prot src => cases r <;> exact h
    | unmap a len => cases r <;> exact h
    | protect a len prot => cases r <;> exact h
    | write a data => cases r <;> exact h
    | zero a len => cases r <;> exact h
    | icacheSync a len => exact h
  | openPath path => exact h
  | readExactAt src off n => exact h
  | tryReserve n => exact h
  | stackWrite a data => exact h

/-- The entry point of a plan is an address. -/
theorem PlanMade.entry_lt {pg : PageSize} {image : Image} {raw : Nat} {room : Bool}
    (h : PlanMade pg image raw room) (hv : image.Valid pg) :
    (planFor pg image (placementAt image raw)).entry < 2 ^ 64 := by
  have hfits := h.2.1
  cases hpl : placementAt image raw with
  | fixed => exact hv.entry_lt
  | «at» raw' =>
    rw [hpl] at hfits
    exact hfits.2.2

section Load

variable {b : Build} {w : World} {image : Image} {o : Opened} {s s' : Space} {l : Loaded}
  {R : Nat → Prop}

/-- A load changes nothing but its reservation. -/
theorem LoadedOk.agree (h : LoadedOk b w image o.src o.fd s l s') (hv : image.Valid b.page)
    (hp : Placed b.page image l.plan) : AgreeOn b.page (fun x => ¬ reserveRange l x) s s' := by
  cases h with
  | mapped fd _ _ h => exact h.frame.agreeOn fun _ hx => hx
  | copied _ h =>
    have himage {x : Nat} (hx : imagePages b.page l.plan.bias image x) : reserveRange l x := by
      rcases hx with ⟨i, hi, hx⟩
      have hin := hp.seg_inside hv hi
      exact ⟨hin.1.trans hx.1, lt_of_lt_of_le hx.2 hin.2⟩
    constructor
    · intro x hx
      apply h.prot
      rintro ⟨i, hi, -, hxi⟩
      exact hx (himage ⟨i, hi, hxi⟩)
    · intro x hx
      exact h.mem x fun hin => hx (himage hin)

/-- A reservation has no byte that was in use. -/
theorem LoadedOk.spares (h : LoadedOk b w image o.src o.fd s l s') (hapart : BlocksApart s')
    (huse : InUse b.page s R (¬ Mapped b o.fd)) {x : Nat} (hx : R x) : ¬ reserveRange l x := by
  intro hin
  cases h with
  | mapped fd _ _ h =>
    apply huse.mapped x hx
    apply h.free
    exact touches_div hin.1 hin.2
  | copied hmap h =>
    rcases huse.block hmap with ⟨blk, hblk, hall⟩
    unfold BlocksApart at hapart
    rw [h.blocks, List.pairwise_cons] at hapart
    have hsep := hapart.1 blk hblk
    have hR := hall x hx
    rcases hin with ⟨hlo, hhi⟩
    rcases hR with ⟨hlo', hhi'⟩
    simp only at hsep
    omega

/-- What was in use still is. -/
theorem LoadedOk.inUse_kept (h : LoadedOk b w image o.src o.fd s l s') (hv : image.Valid b.page)
    (hp : Placed b.page image l.plan) (hapart : BlocksApart s')
    (huse : InUse b.page s R (¬ Mapped b o.fd)) : InUse b.page s' R (¬ Mapped b o.fd) := by
  constructor
  · intro x hx
    rw [(h.agree hv hp).prot x (h.spares hapart huse hx)]
    exact huse.mapped x hx
  · intro hheap
    rcases huse.block hheap with ⟨blk, hblk, hall⟩
    cases h with
    | mapped fd _ hmap _ => exact absurd hmap hheap
    | copied _ h =>
      refine ⟨blk, ?_, hall⟩
      rw [h.blocks]
      exact List.mem_cons_of_mem _ hblk

/-- The image that was loaded is in use. -/
theorem LoadedOk.inUse (h : LoadedOk b w image o.src o.fd s l s') :
    InUse b.page s' (reserveRange l) (¬ Mapped b o.fd) := by
  cases h with
  | mapped fd _ hmap h => exact ⟨fun x => h.protAt_ne_none, fun hnot => absurd hmap hnot⟩
  | copied hmap h =>
    constructor
    · intro x hx
      by_cases henf : enforcedPages b.page w l.plan.bias image x
      · rcases henf with ⟨i, hi, henf, hxi⟩
        rw [(h.segs i hi).2 henf x hxi]
        exact Option.some_ne_none _
      · rw [h.prot x henf, h.heap x hx]
        exact Option.some_ne_none _
    · intro _
      refine ⟨(l.plan.reserveAddr, l.plan.reserveLen), ?_, fun x hx => hx⟩
      rw [h.blocks]
      exact List.mem_cons_self

theorem LoadedOk.inMemory (h : LoadedOk b w image o.src o.fd s l s')
    (hparsed : parseSlice b.arch (w.bytes o.src.handle) b.page = some (ok image))
    (hp : Placed b.page image l.plan) (hentry : l.plan.entry < 2 ^ 64)
    (hfd : ∀ fd ∈ o.fd, w.fdBytes fd = w.bytes o.src.handle) : InMemory b w o image l s' := by
  have hdec := decoded_of_parseSlice hparsed
  refine ⟨hparsed, hp, hentry, ?_, ?_⟩
  · intro ph hph htype
    have hfile := (hdec.table.load_ok ph hph htype).file_le _ rfl
    rcases hdec.valid.exists_seg hph htype with ⟨i, hi, rfl⟩
    exact (h.shown rfl hfd hi).reference hp.dvd_bias hfile
  · intro hmap x hx
    cases h with
    | copied hnot _ => exact absurd hmap hnot
    | mapped fd _ _ h =>
      constructor
      · rintro ph ⟨hph, htype, hseg⟩
        rcases hdec.valid.exists_seg hph htype with ⟨i, hi, rfl⟩
        exact (h.segs i hi).2 x hseg
      · intro hno
        apply h.gaps x hx
        rintro ⟨i, hi, hxi⟩
        have hseg := hdec.valid.seg_mem hi
        exact hno _ ⟨hseg.1, hseg.2, hxi⟩

end Load

/-! ### The whole program -/

/-- The path in `PT_INTERP`, up to its terminator; there is none without that header. -/
def NamesInterp (f : Bytes) (image : Image) : Option Bytes → Prop
  | none => image.interp = none
  | some path => path ≠ [] ∧ 0 ∉ path ∧ ∃ ph, image.interp = some ph ∧
      path ++ [0] <+: bytesAt f ph.pOffset ph.pFilesz

/-- The interpreter that was asked for is in memory, and only that. -/
def InterpIn (b : Build) (w : World) (s : Space) :
    Option Bytes → Option (Image × Loaded) → Prop
  | none, none => True
  | some path, some (image, l) => ∃ o, w.lookup path = some o ∧ image.ehdr.eType = ET_DYN ∧
      image.interp = none ∧ InMemory b w o image l s
  | _, _ => False

/-- The program at `path` is in memory, together with the interpreter it names. -/
structure ProgramIn (b : Build) (w : World) (path : Bytes) (p : LoadedProgram) (s : Space) :
    Prop where
  main : ∃ o, w.lookup path = some o ∧ InMemory b w o p.image p.main s ∧
    NamesInterp (w.bytes o.src.handle) p.image p.interpPath
  interp : InterpIn b w s p.interpPath p.interp

/-- Where a program was put. -/
def programRange (p : LoadedProgram) (x : Nat) : Prop :=
  reserveRange p.main x ∨ ∃ v ∈ p.interp, reserveRange v.2 x

theorem ProgramIn.frame {b : Build} {w : World} {path : Bytes} {p : LoadedProgram} {s s' : Space}
    (h : ProgramIn b w path p s) (hsame : AgreeOn b.page (programRange p) s s') :
    ProgramIn b w path p s' := by
  rcases p with ⟨image, main, interp, interpPath⟩
  constructor
  · rcases h.main with ⟨o, ho, hmain, hnames⟩
    refine ⟨o, ho, hmain.frame ⟨?_, ?_⟩, hnames⟩
    · exact fun x hx => hsame.prot x (Or.inl hx)
    · exact fun x hx => hsame.mem x (Or.inl hx)
  · have hinterp := h.interp
    cases interpPath with
    | none =>
      cases interp with
      | none => trivial
      | some v => exact hinterp.elim
    | some ip =>
      cases interp with
      | none => exact hinterp.elim
      | some v =>
        rcases hinterp with ⟨o, ho, htype, hno, hin⟩
        refine ⟨o, ho, htype, hno, hin.frame ⟨?_, ?_⟩⟩
        · exact fun x hx => hsame.prot x (Or.inr ⟨v, rfl, hx⟩)
        · exact fun x hx => hsame.mem x (Or.inr ⟨v, rfl, hx⟩)

section Program

variable {b : Build} {w : World} {k : Nat} {s : Space} {n : Notes}

theorem wp_opened (path : Bytes) :
    wp (noted b.page w) (notedPre b.page k) (openPath path)
      (post (fun s' o => s' = (s, n.tried (some o)) ∧ w.lookup path = some o) (fun _ _ => True)
        True) (s, n) := by
  refine ⟨⟨trivial, fun h => h.elim⟩, ?_⟩
  rintro (e | o) s' ⟨⟨hans, hs⟩, hn⟩
  · trivial
  · exact ⟨Prod.ext hs hn, hans⟩

/-- The first zero of a list ends the string in front of it. -/
theorem take_findIdx?_zero {bs : Bytes} {m : Nat} (h : bs.findIdx? (· == 0) = some m) :
    0 ∉ bs.take m ∧ bs.take m ++ [0] <+: bs ∧ (bs.take m).length = m := by
  rcases List.findIdx?_eq_some_iff_getElem.mp h with ⟨hm, hzero, hbefore⟩
  have hlen : (bs.take m).length = m := by
    rw [List.length_take]
    omega
  refine ⟨?_, ?_, hlen⟩
  · intro hmem
    rcases List.getElem_of_mem hmem with ⟨i, hi, heq⟩
    rw [List.getElem_take] at heq
    have hno := hbefore i (by omega)
    rw [heq] at hno
    exact hno rfl
  · have hsplit : bs = bs.take m ++ bs[m] :: bs.drop (m + 1) := by
      rw [List.getElem_cons_drop, List.take_append_drop]
    have hval : bs[m] = 0 := by simpa using hzero
    rw [hval] at hsplit
    exact ⟨bs.drop (m + 1), by rw [List.append_assoc]; exact hsplit.symm⟩

theorem wp_interpPathNamed (hn : n.granted = none) (image : Image) (src : Source) :
    wp (noted b.page w) (notedPre b.page k) (interpPathOf image src)
      (post (fun s' ip => s' = (s, n) ∧ NamesInterp (w.bytes src.handle) image ip)
        (fun _ _ => True) True) (s, n) := by
  unfold interpPathOf
  split
  · rename_i hneeds
    rcases Option.isSome_iff_exists.mp hneeds with ⟨ph, hph⟩
    refine wp_bind_post (P := fun s' ip => s' = (s, n) ∧
      NamesInterp (w.bytes src.handle) image (some ip)) ?_ fun _ _ h => h
    unfold Image.interpPath
    rw [hph]
    change wp _ _ (tryReserve ph.pFilesz Error.ENOMEM >>= _) _ _
    have hstill : wp (noted b.page w) (notedPre b.page k) (tryReserve ph.pFilesz Error.ENOMEM)
        (post (fun s' _ => s' = (s, n)) (fun _ _ => True) True) (s, n) :=
      wp_post_mono ((reads_noted hn src).wp_tryReserve rfl _ _) (fun _ _ h => h) fun _ _ _ => trivial
    apply wp_bind_post hstill
    rintro _ _ rfl
    have hread : wp (noted b.page w) (notedPre b.page k)
        (readExactAt src ph.pOffset ph.pFilesz)
        (post (fun s' buf => s' = (s, n) ∧ FileRead w src ph.pOffset buf.val) (fun _ _ => True)
          True) (s, n) :=
      wp_post_mono ((reads_noted hn src).wp_read rfl _ _) (fun _ _ h => h) fun _ _ _ => trivial
    apply wp_bind_post hread
    rintro _ buf ⟨rfl, hbuf⟩
    have hbytes : buf.val = bytesAt (w.bytes src.handle) ph.pOffset ph.pFilesz := by
      have hlen := hbuf
      rw [FileRead, buf.property] at hlen
      exact hlen
    split
    · trivial
    · rename_i m hne hidx
      rcases take_findIdx?_zero hidx with ⟨hno, hpre, hlen⟩
      rw [hbytes] at hpre
      refine ⟨rfl, ?_, hno, ph, hph, ?_⟩
      · intro hnil
        rw [hnil] at hlen
        apply hne
        exact hlen.symm
      · rw [hbytes]
        exact hpre
    · trivial
  · rename_i hneeds
    have hnone : image.interp = none := by simpa [Image.needsInterp] using hneeds
    exact ⟨rfl, hnone⟩

/-- A load, with all it leaves. -/
theorem wp_loadedOk (hw : Served b w) {path : Bytes} {o : Opened} {image : Image}
    (ho : w.lookup path = some o) (hfile : n.file = some o) (hk : n.takes ≤ k)
    (himage : ImageIn b w o image) (hapart : BlocksApart s) :
    wp (noted b.page w) (notedPre b.page k) (load b image o.src o.fd)
      (post (fun s' l => s'.2.takes = n.takes + 1 ∧ LoadedOk b w image o.src o.fd s l s'.1 ∧
        InMemory b w o image l s'.1 ∧ BlocksApart s'.1) (fun _ _ => True) True) (s, n) := by
  have hload := wp_load (w := w) (k := k) (s := s) himage.valid hfile hk o.src o.fd
  have hstep (st : Space × Notes) (op : HostOp) (r : op.Res) (st' : Space × Notes)
      (hst : BlocksApart st.1) (h : noted b.page w st op r st') : BlocksApart st'.1 := by
    rw [h.1.2]
    exact hst.after h.1.1
  apply wp_mono (wp_keeps (J := fun st => BlocksApart st.1) hstep hload hapart)
  rintro s' (l | e | -) ⟨hpost, hapart'⟩
  · rcases hpost with ⟨⟨hp, raw, hn', hmade, hplan⟩, hok⟩
    have hparsed := himage.parseSlice_eq (hw.size path o ho) (hw.small path o ho)
    have hentry : l.plan.entry < 2 ^ 64 := by
      rw [hplan]
      exact hmade.entry_lt himage.valid
    refine ⟨?_, hok, hok.inMemory hparsed hp hentry (hw.descriptor path o ho), hapart'⟩
    rw [hn']
    rfl
  · trivial
  · trivial

theorem wp_interpLoaded (hw : Served b w) (hk : n.takes ≤ k) (hapart : BlocksApart s)
    (path : Bytes) :
    wp (noted b.page w) (notedPre b.page k) (loadInterp b path)
      (post (fun s' v => ∃ o, w.lookup path = some o ∧ v.1.ehdr.eType = ET_DYN ∧
        v.1.interp = none ∧ LoadedOk b w v.1 o.src o.fd s v.2 s'.1 ∧
        InMemory b w o v.1 v.2 s'.1 ∧ BlocksApart s'.1) (fun _ _ => True) True) (s, n) := by
  apply wp_bind_post (wp_opened path)
  rintro _ o ⟨rfl, ho⟩
  apply wp_bind_err (wp_parseImage rfl) fun _ _ _ => trivial
  rintro _ image ⟨rfl, himage⟩
  refine wp_lift_bind ?_ (fun _ _ => trivial) fun _ => trivial
  intro _ htype
  refine wp_lift_bind ?_ (fun _ _ => trivial) fun _ => trivial
  intro _ hneeds
  rw [guardErr_eq_ok, not_not] at htype
  have hno : image.interp = none := by simpa [Image.needsInterp] using hneeds
  apply wp_bind_post (wp_loadedOk (n := n.tried (some o)) hw ho rfl hk himage hapart)
  rintro s' l ⟨-, hok, hin, hapart'⟩
  exact ⟨o, ho, htype, hno, hok, hin, hapart'⟩

/-- The interpreter spares what is in use. -/
theorem wp_interpForLoaded (hw : Served b w) (hk : n.takes ≤ k) (hapart : BlocksApart s)
    (main : Loaded) (ip : Option Bytes) :
    wp (noted b.page w) (notedPre b.page k) (loadInterpFor b main ip)
      (post (fun s' interp => InterpIn b w s'.1 ip interp ∧
        AgreeOn b.page (fun x => ∀ v ∈ interp, ¬ reserveRange v.2 x) s s'.1 ∧
        ∀ R, InUse b.page s R (Copies b w) →
          ∀ v ∈ interp, ∀ x, R x → ¬ reserveRange v.2 x) (fun _ _ => True) True) (s, n) := by
  cases ip with
  | none => exact ⟨trivial, ⟨fun _ _ => rfl, fun _ _ => rfl⟩, fun _ _ _ hv => nomatch hv⟩
  | some ip =>
    refine wp_attempt_post (wp_interpLoaded hw hk hapart ip) ?_ ?_
    · rintro s' v ⟨o, ho, htype, hno, hok, hin, hapart'⟩
      have hv := (decoded_of_parseSlice hin.parsed).valid
      have hagree := hok.agree hv hin.placed
      refine ⟨⟨o, ho, htype, hno, hin⟩, ⟨?_, ?_⟩, ?_⟩
      · exact fun x hx => hagree.prot x (hx v rfl)
      · exact fun x hx => hagree.mem x (hx v rfl)
      · rintro R huse _ ⟨⟩ x hx
        exact hok.spares hapart' (huse.mapping hw ho) hx
    · intro s' e _
      have hunload : wp (noted b.page w) (notedPre b.page k) (main.unload : Prog Host Error Unit)
          (post (fun _ _ => True) (fun _ _ => True) True) s' :=
        wp_post_mono (wp_unload (n := s'.2) main) (fun _ _ _ => trivial) fun _ _ h => h
      apply wp_bind_post hunload
      intro _ _ _
      trivial

/-- **What a loaded program leaves.**  It is in memory together with its interpreter, the two
    spare each other and all that was in use, and nothing else has changed. -/
theorem wp_programLoaded (hw : Served b w) (hapart : BlocksApart s) (path : Bytes) :
    wp (noted b.page w) (notedPre b.page 1) (loadProgram b path)
      (post (fun s' p => ProgramIn b w path p s'.1 ∧
        AgreeOn b.page (fun x => ¬ programRange p x) s s'.1 ∧
        ∀ R, InUse b.page s R (Copies b w) → ∀ x, R x → ¬ programRange p x)
        (fun _ _ => True) True) (s, Notes.empty) := by
  apply wp_bind_post (wp_opened path)
  rintro _ o ⟨rfl, ho⟩
  apply wp_bind_err (wp_parseImage rfl) fun _ _ _ => trivial
  rintro _ image ⟨rfl, himage⟩
  refine wp_lift_bind ?_ (fun _ _ => trivial) fun _ => trivial
  intro _ _
  apply wp_bind_post (wp_interpPathNamed rfl image o.src)
  rintro _ ip ⟨rfl, hnames⟩
  apply wp_bind_post (wp_loadedOk hw ho rfl (Nat.zero_le 1) himage hapart)
  rintro ⟨s₁, n₁⟩ main ⟨htakes, hok, hin, hapart₁⟩
  have hv := (decoded_of_parseSlice hin.parsed).valid
  have hagree := hok.agree hv hin.placed
  refine wp_lift_bind ?_ (fun _ _ => trivial) fun _ => trivial
  intro _ _
  refine wp_lift_bind ?_ (fun _ _ => trivial) fun _ => trivial
  intro _ _
  apply wp_bind_post (wp_interpForLoaded hw (Nat.le_of_eq htakes) hapart₁ main ip)
  rintro ⟨s₂, n₂⟩ interp ⟨hinterp, hagree₂, hspares⟩
  have hmain : ∀ v ∈ interp, ∀ x, reserveRange main x → ¬ reserveRange v.2 x :=
    hspares (reserveRange main) (hok.inUse.copies ho)
  refine ⟨⟨⟨o, ho, hin.frame ⟨?_, ?_⟩, hnames⟩, hinterp⟩, ⟨?_, ?_⟩, ?_⟩
  · exact fun x hx => hagree₂.prot x fun v hv => hmain v hv x hx
  · exact fun x hx => hagree₂.mem x fun v hv => hmain v hv x hx
  · intro x hx
    have hout := not_or.mp hx
    rw [hagree₂.prot x fun v hv hin => hout.2 ⟨v, hv, hin⟩]
    exact hagree.prot x hout.1
  · intro x hx
    have hout := not_or.mp hx
    rw [hagree₂.mem x fun v hv hin => hout.2 ⟨v, hv, hin⟩]
    exact hagree.mem x hout.1
  · rintro R huse x hx (hin' | ⟨v, hv', hin'⟩)
    · exact hok.spares hapart₁ (huse.mapping hw ho) hx hin'
    · have hkept := hok.inUse_kept hv hin.placed hapart₁ (huse.mapping hw ho)
      exact hspares R (hkept.copies ho) v hv' x hx hin'

end Program

end ElfLoader.AddressSpace
