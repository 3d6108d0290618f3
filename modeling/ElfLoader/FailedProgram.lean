import ElfLoader.Unload

/-!
# What a failed `load_program` leaves behind

There are two ways for a failed load to leave traces.  A plan that cannot be made
once the reservation is taken leaves the reservation behind, since nothing owns it
yet.  And a program that was copied is given back to the heap with narrowed
protections when its interpreter cannot be loaded.  `Clean` says that neither
happens, in terms of the files and of what the system granted; a failed
`load_program` leaves the address space as it was exactly if the run was clean.
-/

namespace ElfLoader.AddressSpace

open ElfLoader Outcome Prog Elf Layout Loader Program

def FileRead (w : World) (src : Source) (off : Nat) (bs : Bytes) : Prop :=
  bs = bytesAt (w.bytes src.handle) off bs.length

abbrev ImageIn (b : Build) (w : World) (o : Opened) (image : Image) : Prop :=
  Decoded (FileRead w o.src) b.arch b.page o.src.size image

/-- The condition on a run: every reservation that was granted is one a plan can be
    made for, and if an interpreter was asked for, the program was not given a heap
    block whose protections were narrowed. -/
structure Clean (b : Build) (w : World) (n : Notes) : Prop where
  plans : ∀ pn ∈ n.plans, ∀ image, ImageIn b w pn.file image →
    NoLeak b.page image (decide (¬ Mapped b pn.file.fd)) pn.addr pn.room
  program : n.opens = 2 → ∀ pn ∈ n.plans.getLast?, ¬ Mapped b pn.file.fd →
    ∀ image, ImageIn b w pn.file image →
      Unnarrowed b.page w image (biasAt b.page image pn.addr)

/-! ### One image per file -/

theorem ImageIn.eq {b : Build} {w : World} {o : Opened} {image image' : Image}
    (h : ImageIn b w o image) (h' : ImageIn b w o image') : image = image' := by
  refine Elf.Decoded.unique ?_ h h'
  intro off bs bs' hbs hbs' hlen
  rw [hbs, hbs', hlen]

/-- What was decoded from a file is what a parser of its bytes returns. -/
theorem ImageIn.parseSlice_eq {b : Build} {w : World} {o : Opened} {image : Image}
    (h : ImageIn b w o image)
    (hsize : o.src.size = some (w.bytes o.src.handle).length)
    (hsmall : (w.bytes o.src.handle).length < 2 ^ 64) :
    parseSlice b.arch (w.bytes o.src.handle) b.page = some (ok image) := by
  have hread {off : Nat} {bs : Bytes} (hbs : FileRead w o.src off bs) (hpos : 0 < bs.length) :
      SliceRead (w.bytes o.src.handle) off bs := by
    refine ⟨?_, hbs⟩
    have hlen := congrArg List.length hbs
    simp only [bytesAt, List.length_take, List.length_drop] at hlen
    omega
  have hdecoded : Decoded (SliceRead (w.bytes o.src.handle)) b.arch b.page
      (some (w.bytes o.src.handle).length) image := by
    rw [← hsize]
    refine ⟨?_, h.header, h.length, ?_, h.table, h.image_eq⟩
    · rcases h.ehdr with ⟨raw, hraw, hlen, heq⟩
      exact ⟨raw, hread hraw (by rw [hlen]; decide), hlen, heq⟩
    · intro i hi
      rcases h.phdrs i hi with ⟨ent, hent, hlen, heq⟩
      exact ⟨ent, hread hent (by rw [hlen]; decide), hlen, heq⟩
  rcases hdecoded.loadable.parse hsmall with ⟨image', himage'⟩
  have hunique : image = image' := by
    apply Decoded.unique ?_ hdecoded (decoded_of_parseSlice himage')
    intro off bs bs' hbs hbs' hlen
    rw [hbs.2, hbs'.2, hlen]
  rw [himage', hunique]

/-! ### The calls around a load -/

section Calls

variable {pg : PageSize} {w : World} {k : Nat} {s : Space} {n : Notes} {X : Prop}

theorem reads_noted (hn : n.granted = none) (src : Source) :
    Reads (noted pg w) (notedPre pg k) src (· = (s, n)) (FileRead w src) where
  keep := by
    rintro _ op rfl hq
    cases op with
    | readExactAt src off n =>
      refine ⟨⟨trivial, fun h => h.elim⟩, ?_⟩
      rintro r s' ⟨⟨-, hs⟩, hn'⟩
      exact Prod.ext hs hn'
    | tryReserve m =>
      refine ⟨⟨trivial, fun h => h.elim⟩, ?_⟩
      rintro r s' ⟨⟨-, hs⟩, hn'⟩
      exact Prod.ext hs (hn'.trans (Notes.asked_none hn r))
    | _ => exact absurd hq (by simp [HostOp.Quiet])
  read := by
    rintro _ off m buf s' rfl ⟨⟨hread, -⟩, -⟩
    have h : buf.val = bytesAt (w.bytes src.handle) off m := hread
    rw [FileRead, buf.property]
    exact h

def Notes.tried (n : Notes) (o : Option Opened) : Notes :=
  { n with opens := n.opens + 1, file := o, granted := none }

theorem wp_openPath (path : Bytes) :
    wp (noted pg w) (notedPre pg k) (openPath path)
      (post (fun s' o => s' = (s, n.tried (some o))) (fun s' _ => s' = (s, n.tried none)) X)
      (s, n) := by
  refine ⟨⟨trivial, fun h => h.elim⟩, ?_⟩
  rintro (e | o) s' ⟨⟨-, hs⟩, hn⟩
  · exact Prod.ext hs hn
  · exact Prod.ext hs hn

theorem wp_parseImage {b : Build} {o : Opened} (hn : n.granted = none) :
    wp (noted b.page w) (notedPre b.page k)
      ((Image.parse b.arch o.src b.pageSize).mapErr Reject.toError)
      (post (fun s' image => s' = (s, n) ∧ ImageIn b w o image) (fun s' _ => s' = (s, n)) X)
      (s, n) :=
  wp_mapErr_post (wp_parse (reads_noted hn o.src) b.arch b.page rfl)

theorem wp_interpPathOf (hn : n.granted = none) (image : Image) (src : Source) :
    wp (noted pg w) (notedPre pg k) (interpPathOf image src)
      (post (fun s' _ => s' = (s, n)) (fun s' _ => s' = (s, n)) X) (s, n) := by
  unfold interpPathOf
  split
  · refine wp_bind_post (P := fun s' _ => s' = (s, n)) ?_ (fun _ _ h => h)
    refine wp_lift_bind ?_ (fun _ _ => rfl) fun hp => absurd hp okOr_ne_panic
    intro ph _
    refine wp_bind_post ((reads_noted hn src).wp_tryReserve rfl _ _) ?_
    rintro _ _ rfl
    refine wp_bind_post ((reads_noted hn src).wp_read rfl _ _) ?_
    rintro _ buf ⟨rfl, -⟩
    split <;> rfl
  · rfl

end Calls

/-! ### The interpreter -/

/-- What a failed attempt at the interpreter leaves behind. -/
def InterpFailed (b : Build) (w : World) (s : Space) (n : Notes) (s' : Space × Notes) : Prop :=
  s'.2.opens = n.opens + 1 ∧ (w.unmaps = true →
    (s'.2.plans = n.plans ∧ SameSpace s s'.1) ∨
    ∃ o raw room image, ImageIn b w o image ∧ s'.2.plans = ⟨o, raw, room⟩ :: n.plans ∧
      ((NoLeak b.page image (decide (¬ Mapped b o.fd)) raw room ∧ SameSpace s s'.1) ∨
        (¬ NoLeak b.page image (decide (¬ Mapped b o.fd)) raw room ∧ Grown s s'.1)))

section Interp

variable {b : Build} {w : World} {k : Nat} {s : Space} {n : Notes}

theorem interpFailed_still (o : Option Opened) : InterpFailed b w s n (s, n.tried o) :=
  ⟨rfl, fun _ => Or.inl ⟨rfl, rfl, rfl⟩⟩

theorem wp_loadInterp (hk : n.takes ≤ k) (path : Bytes) :
    wp (noted b.page w) (notedPre b.page k) (loadInterp b path)
      (post (fun _ _ => True) (fun s' _ => InterpFailed b w s n s') True) (s, n) := by
  refine wp_bind_err (wp_openPath path) ?_ ?_
  · rintro _ _ rfl
    exact interpFailed_still none
  rintro _ o rfl
  refine wp_bind_err (wp_parseImage (o := o) rfl) ?_ ?_
  · rintro _ _ rfl
    exact interpFailed_still _
  rintro _ image ⟨rfl, himage⟩
  refine wp_lift_bind ?_ (fun _ _ => interpFailed_still _) fun _ => trivial
  intro _ _
  refine wp_lift_bind ?_ (fun _ _ => interpFailed_still _) fun _ => trivial
  intro _ _
  have hload := wp_load (w := w) (k := k) (s := s) (n := n.tried (some o)) (o := o)
    himage.valid rfl hk o.src o.fd
  refine wp_bind_err hload ?_ fun _ _ _ => trivial
  rintro s' _ ⟨hopens, hfail⟩
  refine ⟨hopens, fun hw => (hfail hw).imp id ?_⟩
  rintro ⟨raw, room, hplans, hleft⟩
  exact ⟨o, raw, room, image, himage, hplans, hleft⟩

end Interp

/-! ### Releasing the program after that -/

section Release

variable {b : Build} {image : Image} {w : World} {src : Source} {fd : Option Int}
  {s s₁ s₂ : Space} {l : Loaded}

/-- Every page of a mapped reservation is mapped. -/
theorem MappedOk.protAt_ne_none {pg : PageSize} {fd : Int} (h : MappedOk pg w image fd s l s₁)
    {x : Nat} (hx : reserveRange l x) : s₁.protAt pg x ≠ none := by
  by_cases himg : imagePages pg l.plan.bias image x
  · obtain ⟨i, hi, hxi⟩ := himg
    rw [(h.segs i hi).2 x hxi]
    simp
  · rw [h.gaps x hx himg]
    simp

/-- A page that is free after a load was free before, and is none of the
    reservation. -/
theorem LoadedOk.free_page (h : LoadedOk b w image src fd s l s₁) {p : Nat}
    (hp : s₁.prot p = none) (s₂ : Space) :
    s.prot p = none ∧ (released b.page l s₂).prot p = s₂.prot p := by
  have hx : s₁.protAt b.page (p * b.page.bytes) = none := by
    rwa [Space.protAt, Nat.mul_div_cancel p b.page.pos]
  have hprot (s : Space) : s.prot p = s.protAt b.page (p * b.page.bytes) := by
    rw [Space.protAt, Nat.mul_div_cancel p b.page.pos]
  cases h with
  | mapped fd' _ _ h =>
    have hout : ¬ reserveRange l (p * b.page.bytes) := fun hin => h.protAt_ne_none hin hx
    rw [hprot, hprot, hprot, released, if_neg (by simp [h.allocated]),
      protAt_unmapped h.dvd_addr h.dvd_len]
    exact ⟨(h.frame.prot _ hout).symm.trans hx, if_neg hout⟩
  | copied _ h =>
    have hout : ¬ enforcedPages b.page w l.plan.bias image (p * b.page.bytes) := by
      rintro ⟨i, hi, henf, hxi⟩
      rw [(h.segs i hi).2 henf _ hxi] at hx
      cases hx
    rw [released, if_pos h.allocated, hprot, ← h.prot _ hout]
    exact ⟨hx, rfl⟩

/-- Blocks that were added stay when the image is released. -/
theorem LoadedOk.blocks_ne (h : LoadedOk b w image src fd s l s₁) {blk : Nat × Nat}
    (hblk : s₂.blocks = blk :: s₁.blocks) : (released b.page l s₂).blocks ≠ s.blocks := by
  intro heq
  have hlen := congrArg List.length heq
  cases h with
  | mapped fd' _ _ h =>
    rw [released, if_neg (by simp [h.allocated])] at hlen
    simp [Space.unmapped, hblk, h.frame.blocks] at hlen
  | copied _ h =>
    rw [released, if_pos h.allocated] at hlen
    simp only [hblk, h.blocks] at hlen
    rw [List.length_erase_of_mem (by simp)] at hlen
    simp at hlen

/-- A trace left after the program was loaded stays when the program is
    released. -/
theorem LoadedOk.not_same_of_grown (h : LoadedOk b w image src fd s l s₁) (hg : Grown s₁ s₂) :
    ¬ SameSpace s (released b.page l s₂) := by
  intro hs
  rcases hg.more with ⟨blk, hblk⟩ | ⟨-, p, hp, hp'⟩
  · exact h.blocks_ne hblk hs.blocks
  · obtain ⟨hbefore, hafter⟩ := h.free_page hp s₂
    rw [← hafter, hs.prot] at hp'
    exact hp' hbefore

/-- Without such a trace, the program's own protections decide. -/
theorem LoadedOk.same_iff (h : LoadedOk b w image src fd s l s₁) (hv : image.Valid b.page)
    (hp : Placed b.page image l.plan) (hs : SameSpace s₁ s₂) :
    SameSpace s (released b.page l s₂) ↔
      (¬ Mapped b fd → Unnarrowed b.page w image l.plan.bias) := by
  have hback : SameSpace s (released b.page l s₂) ↔ SameSpace s (released b.page l s₁) := by
    have hprot : (released b.page l s₂).prot = (released b.page l s₁).prot := by
      unfold released
      split
      · exact hs.prot
      · simp only [Space.unmapped, hs.prot]
    have hblocks : (released b.page l s₂).blocks = (released b.page l s₁).blocks := by
      unfold released
      split
      · simp only [hs.blocks]
      · exact hs.blocks
    constructor
    · exact fun h => ⟨hprot ▸ h.prot, hblocks ▸ h.blocks⟩
    · exact fun h => ⟨hprot ▸ h.prot, hblocks ▸ h.blocks⟩
  rw [hback]
  cases h with
  | mapped fd' _ hmap h => exact ⟨fun _ hnot => absurd hmap hnot, fun _ => h.sameSpace⟩
  | copied hmap h =>
    rw [h.sameSpace_iff hv hp]
    exact ⟨fun h _ => h, fun h => h hmap⟩

end Release

/-! ### The whole program -/

section Program

variable {b : Build} {image : Image} {w : World} {k : Nat} {s s₁ : Space} {n : Notes} {o : Opened}
  {l : Loaded}

/-- If the interpreter cannot be loaded, the program is released as well. -/
theorem wp_loadInterpFor (hk : n.takes ≤ k) (main : Loaded) (ip : Option Bytes) :
    wp (noted b.page w) (notedPre b.page k) (loadInterpFor b main ip)
      (post (fun _ _ => True) (fun s' _ => ∃ s₂, InterpFailed b w s n (s₂, s'.2) ∧
        (w.unmaps = true → s'.1 = released b.page main s₂)) True) (s, n) := by
  cases ip with
  | none => trivial
  | some ip =>
    refine wp_attempt_post (wp_loadInterp hk ip) (fun _ _ _ => trivial) ?_
    rintro ⟨s₂, n₂⟩ e hfail
    refine wp_bind_post (wp_unload main) ?_
    rintro ⟨s', n'⟩ _ ⟨rfl, hs'⟩
    exact ⟨s₂, hfail, hs'⟩

theorem clean_nil (h : n.plans = []) : Clean b w n :=
  ⟨by simp [h], by simp [h]⟩

/-- The program itself could not be loaded. -/
theorem same_iff_clean_of_main {s' : Space × Notes} (himage : ImageIn b w o image)
    (hplans : n.plans = []) (hopens : n.opens = 1) (hw : w.unmaps = true)
    (h : FailedLoad b.page w image (decide (¬ Mapped b o.fd)) o s n s') :
    SameSpace s s'.1 ↔ Clean b w s'.2 := by
  obtain ⟨hopens', hfail⟩ := h
  rcases hfail hw with ⟨hplans', hsame⟩ | ⟨raw, room, hplans', hleft⟩
  · exact ⟨fun _ => clean_nil (hplans'.trans hplans), fun _ => hsame⟩
  · rw [hplans] at hplans'
    rcases hleft with ⟨hno, hsame⟩ | ⟨hleak, hgrown⟩
    · refine ⟨fun _ => ⟨?_, ?_⟩, fun _ => hsame⟩
      · rw [hplans', List.forall_mem_singleton]
        intro image' himage'
        rw [← himage.eq himage']
        exact hno
      · rw [hopens', hopens]
        exact fun h => absurd h (by decide)
    · refine ⟨fun hsame => absurd hsame hgrown.not_same, fun hclean => absurd ?_ hleak⟩
      exact hclean.plans ⟨o, raw, room⟩ (by simp [hplans']) image himage

/-- The program was loaded, but its interpreter could not be. -/
theorem same_iff_clean_of_interp {s₂ : Space} {n₁ n₂ : Notes} (himage : ImageIn b w o image)
    (hplans : n.plans = []) (hopens : n.opens = 1) (hw : w.unmaps = true)
    (hnoted : NotedOk b.page image o n n₁ l) (hok : LoadedOk b w image o.src o.fd s l s₁)
    (h : InterpFailed b w s₁ n₁ (s₂, n₂)) :
    SameSpace s (released b.page l s₂) ↔ Clean b w n₂ := by
  obtain ⟨hp, raw, rfl, hmade, hplan⟩ := hnoted
  obtain ⟨hopens₂, hfail⟩ := h
  have hopens₂ : n₂.opens = 2 := hopens₂.trans (by rw [Notes.made, hopens])
  have hmade_plans : (n.made ⟨o, raw, true⟩).plans = [⟨o, raw, true⟩] := by
    simp [Notes.made, hplans]
  rw [hmade_plans] at hfail
  -- the program's own note: a plan was made, so only its protections matter
  have hmain : ∀ image', ImageIn b w o image' →
      NoLeak b.page image' (decide (¬ Mapped b o.fd)) raw true := by
    intro image' himage'
    rw [← himage.eq himage']
    exact Or.inl hmade
  have hbias : ¬ Mapped b o.fd → l.plan.bias = biasAt b.page image raw := by
    intro hnot
    cases hok with
    | mapped fd' _ hmap _ => exact absurd hmap hnot
    | copied _ hcopied =>
      rw [hplan, placementAt, if_pos hcopied.dyn]
      rfl
  have hlast : (∀ pn ∈ ([⟨o, raw, true⟩] : List PlanNote).getLast?, ¬ Mapped b pn.file.fd →
      ∀ image', ImageIn b w pn.file image' →
        Unnarrowed b.page w image' (biasAt b.page image' pn.addr)) ↔
      (¬ Mapped b o.fd → Unnarrowed b.page w image l.plan.bias) := by
    simp only [List.getLast?_singleton, Option.mem_some_iff, forall_eq']
    constructor
    · intro h hnot
      rw [hbias hnot]
      exact h hnot image himage
    · intro h hnot image' himage'
      rw [← himage.eq himage', ← hbias hnot]
      exact h hnot
  have hsame_iff {s₂ : Space} (hs : SameSpace s₁ s₂) := hok.same_iff himage.valid hp hs
  rcases hfail hw with ⟨hplans₂, hsame⟩ | ⟨oi, rawi, room, imagei, himagei, hplans₂, hleft⟩
  · rw [hsame_iff hsame, ← hlast]
    constructor
    · intro h
      refine ⟨?_, fun _ => by rw [hplans₂]; exact h⟩
      rw [hplans₂, List.forall_mem_singleton]
      exact hmain
    · intro hclean
      have h := hclean.program hopens₂
      rwa [hplans₂] at h
  · have hlast₂ : n₂.plans.getLast? = ([⟨o, raw, true⟩] : List PlanNote).getLast? := by
      rw [hplans₂]
      rfl
    rcases hleft with ⟨hno, hsame⟩ | ⟨hleak, hgrown⟩
    · rw [hsame_iff hsame, ← hlast]
      constructor
      · intro h
        refine ⟨?_, fun _ => by rw [hlast₂]; exact h⟩
        rw [hplans₂, List.forall_mem_cons, List.forall_mem_singleton]
        refine ⟨fun image' himage' => ?_, hmain⟩
        rw [← himagei.eq himage']
        exact hno
      · intro hclean
        have h := hclean.program hopens₂
        rwa [hlast₂] at h
    · refine ⟨fun hsame => absurd hsame (hok.not_same_of_grown hgrown),
        fun hclean => absurd ?_ hleak⟩
      refine hclean.plans ⟨oi, rawi, room⟩ ?_ imagei himagei
      rw [hplans₂]
      exact List.mem_cons_self

theorem wp_loadProgram (path : Bytes) :
    wp (noted b.page w) (notedPre b.page 1) (loadProgram b path)
      (post (fun _ _ => True)
        (fun s' _ => w.unmaps = true → (SameSpace s s'.1 ↔ Clean b w s'.2)) True)
      (s, Notes.empty) := by
  have hstill (o : Option Opened) (hw : w.unmaps = true) :
      SameSpace s s ↔ Clean b w (Notes.empty.tried o) :=
    ⟨fun _ => clean_nil rfl, fun _ => ⟨rfl, rfl⟩⟩
  refine wp_bind_err (wp_openPath path) ?_ ?_
  · rintro _ _ rfl
    exact hstill none
  rintro _ o rfl
  refine wp_bind_err (wp_parseImage (o := o) rfl) ?_ ?_
  · rintro _ _ rfl
    exact hstill _
  rintro _ image ⟨rfl, himage⟩
  have hv := himage.valid
  refine wp_lift_bind ?_ (fun _ _ => hstill _) fun _ => trivial
  intro _ _
  refine wp_bind_err (wp_interpPathOf rfl image o.src) ?_ ?_
  · rintro _ _ rfl
    exact hstill _
  rintro _ ip rfl
  have hload := wp_load (w := w) (k := 1) (s := s) (n := Notes.empty.tried (some o)) (o := o)
    hv rfl (Nat.zero_le 1) o.src o.fd
  refine wp_bind_err hload ?_ ?_
  · exact fun s' _ hfail hw => same_iff_clean_of_main himage rfl rfl hw hfail
  rintro ⟨s₁, n₁⟩ main ⟨hnoted, hok⟩
  have hp := hnoted.1
  have hlo := hv.lo_le_hi
  obtain ⟨hit, hhit⟩ := entryIsExecutable_eq_ok (ε := Error) hv hp
  rw [hp.base_eq, hp.fin_eq, U64.sub_of_le (by omega), lift_ok_bind, hhit, lift_ok_bind]
  have htakes : n₁.takes ≤ 1 := by
    obtain ⟨-, raw, rfl, -⟩ := hnoted
    exact le_rfl
  refine wp_bind_err (wp_loadInterpFor htakes main ip) ?_
    fun _ _ _ => trivial
  rintro ⟨s', n'⟩ _ ⟨s₂, hfail, hs'⟩ hw
  simp only at hs'
  rw [hs' hw]
  exact same_iff_clean_of_interp himage rfl rfl hw hnoted hok hfail

end Program

/-- **When a failed `load_program` leaves no trace.**  For every file and every
    interpreter, every initial address space and every choice of the calls that
    fail: mapped pages, live heap blocks and protections are what they were before
    exactly if the run was clean. -/
theorem failed_program_leaves_nothing_iff (b : Build) (path : Bytes) {w : World} {s s' : Space}
    {tr : List (Event Host)} {e : Error} (hw : w.unmaps = true)
    (hrun : Reaches (step b.page w) s (loadProgram b path) tr s' (.done (err e))) :
    SameSpace s s' ↔ Clean b w (notesOf .empty tr) :=
  wp_reaches (wp_loadProgram (b := b) (s := s) path) (hrun.recorded note .empty) hw

/-- `load_program` on the small program with this entry point, on a machine that
    searches so many pages for a free range. -/
def smallProgram (eEntry slots : Nat) : List (Event Host) × Space × Outcome Error LoadedProgram :=
  (loadProgram ⟨.x86_64, page4K, true⟩ []).run (I := Host)
    ((machine (smallElf eEntry) slots).exec page4K) emptySpace

theorem smallProgram_reaches {eEntry slots : Nat} {r : Outcome Error LoadedProgram}
    (hr : (smallProgram eEntry slots).2.2 = r) :
    Reaches (step page4K (oneFile (smallElf eEntry))) emptySpace
      (loadProgram ⟨.x86_64, page4K, true⟩ []) (smallProgram eEntry slots).1
      (smallProgram eEntry slots).2.1 (.done r) := by
  rw [← hr]
  exact (machine (smallElf eEntry) slots).reaches page4K _ _

/-- `load_program` on the small program with an interpreter, which is not there. -/
def alone : List (Event Host) × Space × Outcome Error LoadedProgram :=
  (loadProgram ⟨.x86_64, page4K, true⟩ []).run (I := Host)
    ((⟨noInterp, 0x10000, 0x100000, 16⟩ : Machine).exec page4K) emptySpace

/-- It was mapped by then, and all of it is given back. -/
theorem alone_leaves_nothing :
    alone.2.2 = err Error.ENOENT ∧
      (notesOf .empty alone.1).plans = [⟨dynOpened, 0x10000, true⟩] ∧
      SameSpace emptySpace alone.2.1 := by
  have herr : alone.2.2 = err Error.ENOENT := by decide +kernel
  have hplans : (notesOf .empty alone.1).plans = [⟨dynOpened, 0x10000, true⟩] := by decide +kernel
  have hrun : Reaches (step page4K noInterp) emptySpace (loadProgram ⟨.x86_64, page4K, true⟩ [])
      alone.1 alone.2.1 (.done (err Error.ENOENT)) := by
    rw [← herr]
    exact (⟨noInterp, 0x10000, 0x100000, 16⟩ : Machine).reaches page4K _ _
  refine ⟨herr, hplans,
    (failed_program_leaves_nothing_iff ⟨.x86_64, page4K, true⟩ [] rfl hrun).mpr ⟨?_, ?_⟩⟩
  · intro pn hpn image himage
    rw [hplans, List.mem_singleton] at hpn
    subst hpn
    have hparsed := himage.parseSlice_eq rfl (by decide +kernel)
    have hdyn : image = dynImage :=
      Outcome.ok.inj (Option.some.inj (hparsed.symm.trans parse_dynElf))
    subst hdyn
    have hplace : placementAt dynImage 0x10000 = .at 0x10000 := by decide +kernel
    have hfits : PlanFits page4K dynImage (.at 0x10000) :=
      ⟨by decide +kernel, by decide +kernel, by decide +kernel⟩
    have hend : roundUp (alignOf page4K dynImage) 0x10000 +
        (dynImage.hi page4K - dynImage.lo page4K) < 2 ^ 64 := by decide +kernel
    refine Or.inl ⟨rfl, ?_, ?_⟩
    · exact hplace ▸ hfits
    · exact hplace ▸ hend
  · intro _ pn hpn hcopied
    rw [hplans] at hpn
    cases hpn
    exact absurd ⟨rfl, by simp [dynOpened]⟩ hcopied

/-- The entry point of this program is past the end of the address space once the
    bias is added.  The load fails, and its reservation stays mapped. -/
theorem small_entry_leaks :
    Reaches (step page4K (oneFile (smallElf (2 ^ 64 - 1)))) emptySpace
        (loadProgram ⟨.x86_64, page4K, true⟩ []) (smallProgram (2 ^ 64 - 1) 4).1
        (smallProgram (2 ^ 64 - 1) 4).2.1 (.done (err Error.ENOMEM)) ∧
      (oneFile (smallElf (2 ^ 64 - 1))).unmaps = true ∧
      ¬ SameSpace emptySpace (smallProgram (2 ^ 64 - 1) 4).2.1 := by
  refine ⟨smallProgram_reaches (by decide +kernel), rfl, ?_⟩
  intro h
  have hafter : (smallProgram (2 ^ 64 - 1) 4).2.1.prot 0x10 = some PROT_NONE := by decide +kernel
  have hbefore : emptySpace.prot 0x10 = none := by decide +kernel
  exact absurd (hafter.symm.trans ((congrFun h.prot 0x10).trans hbefore)) (by simp)

end ElfLoader.AddressSpace
