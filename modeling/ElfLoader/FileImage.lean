import ElfLoader.ShimLoad

/-!
# An image in a file

A file is read in as many pieces as the kernel likes, and a read may fail.  What the loader
makes of it, its headers and the path of its interpreter, is what it makes of the slice of
its bytes, unless a read has failed or the heap was full, and then it is an error.
-/

namespace ElfLoader.Shim

open ElfLoader Outcome Elf Layout Loader AddressSpace App FileRead Program
open ElfLoader.Prog hiding run

/-- A read that failed for no reason in the file, or a heap without room. -/
def troubled : (op : KernelOp) → op.Res → Bool
  | .file op, r => spurious op r
  | .tryReserve _, room => !room
  | _, _ => false

/-- The reads of a program that looks at one image. -/
def ImageCall (handle : Nat) : HostOp → Prop
  | .readExactAt src off n => src.handle = handle ∧ off < 2 ^ 64 ∧ 0 < n
  | .tryReserve _ => True
  | _ => False

/-- What the calls for an image with the bytes `f` answer, and whether there was trouble. -/
def imageStep (f : Bytes) : Handler Host Bool
  | trouble, .readExactAt _ off n, (.ok buf : Except Error (Buf n)), trouble' =>
      trouble' = trouble ∧ off + n ≤ f.length ∧ buf.val = bytesAt f off n
  | _, .readExactAt _ off n, (.error _ : Except Error (Buf n)), trouble' =>
      trouble' = true ∨ f.length < off + n
  | trouble, .tryReserve _, room, trouble' => trouble' = (trouble || !room)
  | _, _, _, _ => False

/-- The kernel, and whether there was trouble. -/
def kernelTrouble (pg : PageSize) (k : KernelWorld) : Handler Kernel (Space × Bool) :=
  recorded (kernelStep pg k) fun trouble op r => trouble || troubled op r

theorem sys_reads_image (cfg : Config) (opener : VfsOpener) (stack : AppStack) (k : KernelWorld)
    (s : Space) (handle : Nat) :
    Implements (imageStep (k.file (.ofNat handle)).val) (fun _ => ImageCall handle)
      (sys cfg opener stack) (fun trouble t => t = (s, trouble)) (kernelTrouble cfg.page k)
      (fun _ _ => True) where
  call := by
    rintro trouble t op rfl hcall
    cases op with
    | vm op => exact hcall.elim
    | openPath path => exact hcall.elim
    | stackWrite addr data => exact hcall.elim
    | tryReserve n =>
      constructor
      · trivial
      rintro room ⟨t, trouble'⟩ ⟨⟨-, hsame⟩, hnote⟩
      exact ⟨trouble', hnote, Prod.ext hsame rfl⟩
    | readExactAt src off n =>
      rcases hcall with ⟨rfl, hoff, hn⟩
      have hfile : Implements (fileStep cfg.page k s) (fun _ _ => True) (fun op => get (.file op))
          (fun trouble t => t = (s, trouble)) (kernelTrouble cfg.page k) (fun _ _ => True) := by
        constructor
        rintro trouble t op rfl -
        constructor
        · trivial
        rintro r ⟨t, trouble'⟩ ⟨⟨hans, hsame⟩, hnote⟩
        exact ⟨trouble', ⟨hans, hnote⟩, Prod.ext hsame rfl⟩
      apply wp_answer
      apply wp_post_mono (wp_readBuf (P := fun _ => True) trouble (fun _ _ _ _ => trivial) hoff hfile rfl)
      · rintro t buf ⟨rfl, hbuf, hin⟩
        have hinside : off + n ≤ (k.file (.ofNat src.handle)).val.length := by
          rcases hin with hin | hzero
          · exact hin
          · omega
        exact ⟨trouble, ⟨rfl, hinside, hbuf⟩, rfl⟩
      · rintro t e ⟨hpos, trouble', rfl, hwhy⟩
        exact ⟨hpos, fun e' => ⟨trouble', hwhy, rfl⟩⟩

/-! ### A program that looks at an image -/

section Follows

variable {f : Bytes} {handle : Nat} {known : Prop} {ε α β : Type}

/-- Where the program ends with an error without trouble, so it does on the slice, and with
    the same error where the size is known. -/
def FailsAlike (f : Bytes) (known : Prop) (p : Prog Host ε α) (e : ε) : Prop :=
  ∃ e', p.eval (I := Host) (sliceHost f) = some (err e') ∧ (known → e' = e)

/-- Without trouble the program ends as it does on the slice; with a value it always does. -/
def Follows (f : Bytes) (handle : Nat) (known : Prop) (p : Prog Host ε α) : Prop :=
  wp (imageStep f) (fun _ => ImageCall handle) p
    (post (fun trouble a => trouble = false ∧ p.eval (I := Host) (sliceHost f) = some (ok a))
      (fun trouble e => trouble = true ∨ FailsAlike f known p e)
      (p.eval (I := Host) (sliceHost f) = some panic)) false

theorem Follows.bind {p : Prog Host ε α} {g : α → Prog Host ε β} (hp : Follows f handle known p)
    (hg : ∀ a, p.eval (I := Host) (sliceHost f) = some (ok a) → Follows f handle known (g a)) :
    Follows f handle known (p >>= g) := by
  apply wp_bind.mpr
  apply wp_mono hp
  intro trouble r hr
  cases r with
  | ok a =>
    rcases hr with ⟨rfl, heval⟩
    have hnext := hg a heval
    simp only [Follows, FailsAlike, ← eval_bind_ok (sliceHost f) g heval] at hnext
    exact hnext
  | err e =>
    rcases hr with htrouble | ⟨e', heval, hsame⟩
    · exact Or.inl htrouble
    · refine Or.inr ⟨e', ?_, hsame⟩
      rw [eval_bind, heval]
  | panic =>
    change _ = _ at hr
    change _ = _
    rw [eval_bind, hr]

theorem follows_lift (r : Outcome ε α) : Follows f handle known (liftM r : Prog Host ε α) := by
  cases r with
  | ok a => exact ⟨rfl, rfl⟩
  | err e => exact Or.inr ⟨e, rfl, fun _ => rfl⟩
  | panic => rfl

theorem Follows.mapErr {ε' : Type} {p : Prog Host ε α} (hp : Follows f handle known p) (g : ε → ε') :
    Follows f handle known (p.mapErr g) := by
  apply wp_mapErr.mpr
  apply wp_mono hp
  intro trouble r hr
  rw [eval_mapErr]
  cases r with
  | ok a =>
    rcases hr with ⟨htrouble, hok⟩
    refine ⟨htrouble, ?_⟩
    rw [hok]
    rfl
  | err e =>
    rcases hr with htrouble | ⟨e', herr, hsame⟩
    · exact Or.inl htrouble
    · refine Or.inr ⟨g e', ?_, fun hknown => congrArg g (hsame hknown)⟩
      rw [eval_mapErr, herr]
      rfl
  | panic =>
    change _ = _ at hr
    rw [hr]
    rfl

theorem follows_tryReserve (n : Nat) (e : ε) : Follows f handle known (tryReserve n e) := by
  constructor
  · trivial
  rintro room trouble' rfl
  cases room with
  | true => exact ⟨rfl, rfl⟩
  | false => exact Or.inl rfl

/-- Where the error of a read is replaced by another one, a file that ends too early says
    what the slice says. -/
theorem follows_read {src : Source} {off n : Nat} (hsrc : src.handle = handle)
    (hoff : off < 2 ^ 64) (hn : 0 < n) (e : ε) :
    Follows f handle known ((readExactAt src off n).mapErr fun _ => e) := by
  constructor
  · exact ⟨hsrc, hoff, hn⟩
  intro r trouble' hstep
  cases r with
  | ok buf =>
    rcases hstep with ⟨rfl, hin, hbuf⟩
    refine ⟨rfl, ?_⟩
    change some (Outcome.mapErr _ (ofExcept (if h : off + n ≤ f.length then _ else _))) = _
    rw [dif_pos hin]
    exact congrArg some (congrArg ok (Subtype.ext hbuf.symm))
  | error e' =>
    rcases hstep with htrouble | hout
    · exact Or.inl htrouble
    · refine Or.inr ⟨e, ?_, fun _ => rfl⟩
      change some (Outcome.mapErr _ (ofExcept (if h : off + n ≤ f.length then _ else _))) = _
      rw [dif_neg (Nat.not_le.mpr hout)]
      rfl

/-- A read that is inside the file where the size is known. -/
theorem follows_readExactAt {src : Source} {off n : Nat} (hsrc : src.handle = handle)
    (hoff : off < 2 ^ 64) (hn : 0 < n) (hin : known → off + n ≤ f.length) :
    Follows f handle known (readExactAt src off n) := by
  constructor
  · exact ⟨hsrc, hoff, hn⟩
  intro r trouble' hstep
  cases r with
  | ok buf =>
    rcases hstep with ⟨rfl, hread, hbuf⟩
    refine ⟨rfl, ?_⟩
    change some (ofExcept (if h : off + n ≤ f.length then _ else _)) = _
    rw [dif_pos hread]
    exact congrArg some (congrArg ok (Subtype.ext hbuf.symm))
  | error e' =>
    rcases hstep with htrouble | hout
    · exact Or.inl htrouble
    · refine Or.inr ⟨Error.ENOEXEC, ?_, fun hknown => absurd (hin hknown) (Nat.not_le.mpr hout)⟩
      change some (ofExcept (if h : off + n ≤ f.length then _ else _)) = _
      rw [dif_neg (Nat.not_le.mpr hout)]
      rfl

end Follows

/-! ### Headers and interpreter -/

section Image

variable {f : Bytes} {src : Source} {arch : Arch} {pg : PageSize} {image : Image}

theorem follows_readPhdrs (ehdr : Ehdr) (n i : Nat) :
    Follows f src.handle known (readPhdrs src ehdr n i) := by
  induction n generalizing i with
  | zero => exact ⟨rfl, rfl⟩
  | succ n ih =>
    apply (follows_lift _).bind
    intro skip _
    apply (follows_lift _).bind
    intro off hoff
    have hlt : off < 2 ^ 64 := Loader.U64.add_lt (Option.some.inj hoff)
    apply (follows_read rfl hlt (by decide) _).bind
    intro ent _
    apply (follows_lift _).bind
    intro ph _
    apply (ih (i + 1)).bind
    intro rest _
    exact ⟨rfl, rfl⟩

theorem follows_parse : Follows f src.handle known (Image.parse arch src pg.bytes) := by
  apply (follows_read rfl (by decide) (by decide) _).bind
  intro raw _
  apply (follows_lift _).bind
  intro ehdr _
  apply (follows_lift _).bind
  intro _ _
  apply (follows_lift _).bind
  intro _ _
  apply (follows_lift _).bind
  intro _ _
  apply (follows_tryReserve _ _).bind
  intro _ _
  apply (follows_readPhdrs ehdr _ _).bind
  intro phdrs _
  exact follows_lift _

/-- What is known of an image that was parsed from a slice. -/
theorem decoded_of_eval {v : Outcome Reject Image}
    (h : (Image.parse arch src pg.bytes).eval (I := Host) (sliceHost f) = some v) :
    v ≠ panic ∧ ∀ image, v = ok image → Decoded (SliceRead f) arch pg src.size image := by
  have hend := wp_eval (wp_parse (X := False) (reads_slice f src) arch pg trivial) h
  cases v with
  | ok image =>
    refine ⟨(nomatch ·), ?_⟩
    rintro _ ⟨⟩
    exact hend.2
  | err e => exact ⟨(nomatch ·), fun _ => (nomatch ·)⟩
  | panic => exact hend.elim

/-- The parts of an image that are looked for in its file, where the size is known. -/
structure InsideFile (size : Nat) (image : Image) : Prop where
  phtab : image.ehdr.ePhoff + image.ehdr.ePhnum * image.ehdr.ePhentsize ≤ size
  load : ∀ ph ∈ image.phdrs, ph.pType = PT_LOAD → ph.pOffset + ph.pFilesz ≤ size
  interp : ∀ ph ∈ image.phdrs, ph.pType = PT_INTERP → ph.pOffset + ph.pFilesz ≤ size

theorem insideFile_of_known {n : Nat} (himage : Decoded (SliceRead f) arch pg (some n) image) :
    InsideFile n image where
  phtab := himage.header.phtab_le n rfl
  load ph hph htype := (himage.table.load_ok ph hph htype).file_le n rfl
  interp ph hph htype := ((himage.table.interp_ok ph hph htype).file_le n rfl).2

/-- An image that was accepted without a look at the size is the one of the slice exactly
    when the parts that are looked for are there. -/
theorem parseSlice_iff_insideFile {size : Option Nat} (hf : f.length < 2 ^ 64)
    (himage : Decoded (SliceRead f) arch pg size image) :
    parseSlice arch f pg = some (ok image) ↔ InsideFile f.length image := by
  constructor
  · intro h
    exact insideFile_of_known (decoded_of_parseSlice h)
  · intro hin
    rcases himage.ehdr_slice with ⟨hpresent, hehdr⟩
    have hphdrs := himage.phdrs_slice
    have hheader : HeaderOk arch (some f.length) image.ehdr :=
      { himage.header with
        phtab_le := by
          rintro n ⟨⟩
          exact hin.phtab }
    have htable : LoadTable pg (some f.length) image.phdrs image.loads :=
      { himage.table with
        load_ok := by
          intro ph hph htype
          refine { himage.table.load_ok ph hph htype with file_le := ?_ }
          rintro n ⟨⟩
          exact hin.load ph hph htype
        interp_ok := by
          intro ph hph htype
          have hle := hin.interp ph hph htype
          refine { himage.table.interp_ok ph hph htype with file_le := ?_ }
          rintro n ⟨⟩
          exact ⟨hle.trans_lt hf, hle⟩ }
    rw [himage.image_eq, hehdr, hphdrs]
    rw [hehdr] at hheader
    rw [hphdrs] at htable
    exact parseSlice_of_table hpresent hheader htable

/-- The interpreter of an image is the one of its headers. -/
theorem interp_mem {R : Nat → Bytes → Prop} {size : Option Nat}
    (himage : Decoded R arch pg size image) {ph : Phdr} (hph : image.interp = some ph) :
    ph ∈ image.phdrs ∧ ph.pType = PT_INTERP := by
  rw [himage.image_eq] at hph
  exact (collect_interp_eq_some himage.table.interp_one ph).mp hph

theorem follows_interpPathOf {size : Option Nat}
    (himage : Decoded (SliceRead f) arch pg size image)
    (hknown : known → InsideFile f.length image) :
    Follows f src.handle known (interpPathOf image src) := by
  unfold interpPathOf
  split
  · refine Follows.bind ?_ fun ip _ => follows_lift (ok (some ip))
    apply (follows_lift _).bind
    intro ph hph
    have hinterp : image.interp = some ph := by
      cases hcase : image.interp with
      | none =>
        rw [hcase] at hph
        cases hph
      | some ph' =>
        rw [hcase] at hph
        cases hph
        rfl
    rcases interp_mem himage hinterp with ⟨hmem, htype⟩
    have hok := himage.table.interp_ok ph hmem htype
    apply (follows_tryReserve _ _).bind
    intro _ _
    apply (follows_readExactAt rfl (himage.valid.bounded ph hmem).offset hok.filesz_pos
      fun h => (hknown h).interp ph hmem htype).bind
    intro buf _
    split
    · exact follows_lift (err _)
    · exact ⟨rfl, rfl⟩
    · exact follows_lift (err _)
  · exact ⟨rfl, rfl⟩

/-- All that `load_program` reads of an image before it maps it. -/
def readImage (arch : Arch) (src : Source) (pg : PageSize) :
    Prog Host Error (Image × Option Bytes) := do
  let image ← (Image.parse arch src pg.bytes).mapErr Reject.toError
  let interpPath ← interpPathOf image src
  pure (image, interpPath)

theorem follows_readImage (src : Source) (hsize : ∀ n ∈ src.size, n = f.length) :
    Follows f src.handle (src.size ≠ none) (readImage arch src pg) := by
  apply (follows_parse.mapErr _).bind
  intro image himage
  rw [eval_mapErr] at himage
  rcases Option.map_eq_some_iff.mp himage with ⟨v, hv, hok⟩
  have hparsed : v = ok image := by
    cases v with
    | ok a =>
      cases hok
      rfl
    | err e => cases hok
    | panic => cases hok
  have hdecoded := (decoded_of_eval hv).2 image hparsed
  apply (follows_interpPathOf hdecoded ?_).bind
  · intro ip _
    exact follows_lift (ok (image, ip))
  · intro hknown
    rcases Option.ne_none_iff_exists'.mp hknown with ⟨n, hn⟩
    rw [← hsize n hn]
    rw [hn] at hdecoded
    exact insideFile_of_known hdecoded

/-- The image that is read is the one that was parsed. -/
theorem decoded_of_readImage {a : Image × Option Bytes}
    (h : (readImage arch src pg).eval (I := Host) (sliceHost f) = some (ok a)) :
    Decoded (SliceRead f) arch pg src.size a.1 := by
  have hreads := reads_slice f src
  have hend : wp (fun (_ : Unit) op r _ => sliceHost f op = some r) (fun _ _ => True)
      (readImage arch src pg) (post (fun _ a => Decoded (SliceRead f) arch pg src.size a.1)
        (fun _ _ => True) True) () := by
    apply wp_bind_post (wp_mapErr_post (wp_post_mono (wp_parse hreads arch pg trivial)
      (fun _ _ h => h) fun _ _ _ => trivial))
    rintro _ image ⟨-, himage⟩
    refine wp_bind_post (P := fun _ _ => True) ?_ fun _ _ _ => himage
    exact wp_mono (wp_of_reaches (fun _ _ _ _ _ => trivial) fun _ _ _ _ => trivial) fun _ r _ => by
      cases r <;> trivial
  exact wp_eval hend h

/-- No slice stops the machine. -/
theorem readImage_ne_panic :
    (readImage arch src pg).eval (I := Host) (sliceHost f) ≠ some panic := by
  intro heval
  have hreads := reads_slice f src
  apply wp_eval (Q := post (fun _ _ => True) (fun _ _ => True) False) ?_ heval
  apply wp_bind_post (wp_mapErr_post (wp_post_mono (wp_parse hreads arch pg trivial)
    (fun _ _ h => h) fun _ _ _ => trivial))
  intro _ image _
  refine wp_bind_post (P := fun _ _ => True) ?_ fun _ _ _ => trivial
  unfold interpPathOf
  split
  · refine wp_bind_post (P := fun _ _ => True) ?_ fun _ _ _ => trivial
    refine wp_lift_bind ?_ (fun _ _ => trivial) fun hpanic => absurd hpanic okOr_ne_panic
    intro ph _
    apply wp_bind_post (hreads.wp_tryReserve trivial _ _)
    intro _ _ _
    apply wp_bind_post (hreads.wp_read trivial _ _)
    intro _ buf _
    split
    · trivial
    · trivial
    · trivial
  · trivial

end Image

/-- Trouble that was never met is not on record. -/
theorem foldl_troubled {tr : List (Event Kernel)} (h : ∀ e ∈ tr, troubled e.1 e.2 = false) :
    tr.foldl (fun trouble e => trouble || troubled e.1 e.2) false = false := by
  induction tr with
  | nil => rfl
  | cons e rest ih =>
    rw [List.forall_mem_cons] at h
    rw [List.foldl_cons, h.1]
    exact ih h.2

/-- **A file is read as the slice of its bytes.**  However the kernel splits the reads, the
    headers and the interpreter's path come out as they do from the bytes in memory, unless a
    call fails that did not have to; then there is an error, and never another value.  The
    memory is left alone.  `File::open` does not always learn the size; without it the checks
    against the end of the file are left out, so that an image is the one of the slice exactly
    where these checks would have passed, and an error need not be the same one. -/
theorem file_read_as_slice (cfg : Config) (opener : VfsOpener) (stack : AppStack)
    (k : KernelWorld) (s : Space) (handle : Nat) (size : Option Nat)
    (hsize : ∀ n ∈ size, n = (k.file (.ofNat handle)).val.length) :
    let f := (k.file (.ofNat handle)).val
    let p := readImage cfg.arch ⟨handle, size⟩ cfg.page
    ∀ tr t v, Reaches (kernelStep cfg.page k) s (p.via (sys cfg opener stack)) tr t (.done v) →
      t = s ∧ v ≠ panic ∧
        (∀ a, v = ok a → p.eval (I := Host) (sliceHost f) = some (ok a) ∧
          (parseSlice cfg.arch f cfg.page = some (ok a.1) ↔ InsideFile f.length a.1) ∧
          (size ≠ none → InsideFile f.length a.1)) ∧
        ((∀ e ∈ tr, troubled e.1 e.2 = false) →
          (∀ e, v = err e → ∃ e', p.eval (I := Host) (sliceHost f) = some (err e')) ∧
          (size ≠ none → p.eval (I := Host) (sliceHost f) = some v)) := by
  intro f p tr t v hrun
  have hfollows : Follows f handle (size ≠ none) p := follows_readImage ⟨handle, size⟩ hsize
  have hnoted := hrun.recorded (fun trouble op r => trouble || troubled op r) false
  have hend := wp_reaches ((sys_reads_image cfg opener stack k s handle).wp rfl hfollows) hnoted
  rcases hend with ⟨trouble, hstate, hpost⟩
  have hsame : t = s := congrArg Prod.fst hstate
  have hnote : tr.foldl (fun trouble e => trouble || troubled e.1 e.2) false = trouble :=
    congrArg Prod.snd hstate
  refine ⟨hsame, ?_, ?_, ?_⟩
  · rintro rfl
    exact readImage_ne_panic hpost
  · rintro a rfl
    have hdecoded := decoded_of_readImage hpost.2
    have hlen : f.length < 2 ^ 64 := (k.file (.ofNat handle)).property.trans (by decide)
    refine ⟨hpost.2, parseSlice_iff_insideFile hlen hdecoded, ?_⟩
    intro hknown
    rcases Option.ne_none_iff_exists'.mp hknown with ⟨n, rfl⟩
    rw [← hsize n rfl]
    exact insideFile_of_known hdecoded
  · intro hcalm
    rw [foldl_troubled hcalm] at hnote
    subst hnote
    cases v with
    | ok a => exact ⟨fun _ h => (nomatch h), fun _ => hpost.2⟩
    | err e =>
      rcases hpost with htrouble | ⟨e', heval, heq⟩
      · exact nomatch htrouble
      · refine ⟨fun _ _ => ⟨e', heval⟩, fun hknown => ?_⟩
        rw [← heq hknown]
        exact heval
    | panic => exact ⟨fun _ h => (nomatch h), fun _ => hpost⟩

/-! ### A file without a size -/

/-- The headers of the small program, read in pieces from a file that `elfrs_fsize` failed
    for. -/
def shortRun : List (Event Kernel) × Space × Outcome Error (Image × Option Bytes) :=
  ((readImage .x86_64 ⟨3, none⟩ page4K).via (sys mmapConfig .app ⟨0, 0⟩)).run (I := Kernel)
    (fun s op =>
      let r := kernelAnswer (machine (smallElf 0x1100) 4) smallKernel page4K s op
      (r, kernelAfter page4K smallKernel s op r)) emptySpace

theorem shortRun_ok : shortRun.2.2 = ok (smallImage 0x1100, none) := by decide +kernel

/-- What is read of the small program in pieces is what its slice says, since the file does
    not end too early. -/
theorem small_file_read :
    shortRun.2.1 = emptySpace ∧ InsideFile (smallElf 0x1100).length (smallImage 0x1100) := by
  have hread := file_read_as_slice mmapConfig .app ⟨0, 0⟩ smallKernel emptySpace 3 none
    (by rintro n ⟨⟩) shortRun.1 shortRun.2.1 shortRun.2.2 (run_reaches
      (fun s op => ⟨kernelAnswer_ok (m := machine (smallElf 0x1100) 4) (by decide) op, rfl⟩) _ _)
  rw [shortRun_ok] at hread
  exact ⟨hread.1, (hread.2.2.1 _ rfl).2.1.mp parse_smallElf⟩

end ElfLoader.Shim
