import ElfLoader.Binfmt
import ElfLoader.LoadResult

/-!
# What a run has heard

`Heard` keeps what the environment answered in a run, as far as a load depends on
it.  Once the headers of a file have been read, the loader and the stack builder
pass on the errors they are given: they end with `ENOEXEC` exactly if a call was
answered so.
-/

namespace ElfLoader.Binfmt

open ElfLoader Outcome Prog Elf Layout Loader Program Auxv

structure Heard where
  /-- The files opened, in order. -/
  files : List Opened := []
  /-- Reads and reservations since the last file was opened. -/
  calls : Nat := 0
  /-- What the first read returned: the header of the requested file. -/
  first : Option Bytes := none
  /-- A call has failed whose failure ends the load, -/
  failed : Bool := false
  /-- with `ENOEXEC`, -/
  noexec : Bool := false
  /-- or while the headers of a file were being read. -/
  unread : Bool := false
deriving DecidableEq

/-- The number of calls it takes to read the headers of a file: one for the
    executable header, one for the vector, and one for each program header. -/
def headerCalls (c : Bytes) : Nat :=
  if c.length < EHDR_SIZE then 1 else 2 + (ehdrAt c).ePhnum

namespace Heard

variable (f : Source → Bytes) (h : Heard)

/-- The headers of the last file have not been read to their end. -/
def inHeaders : Bool :=
  h.files.getLast?.any fun o => decide (h.calls < headerCalls (f o.src))

def mapped (b : Build) : Bool := h.files.getLast?.any fun o => decide (AddressSpace.Mapped b o.fd)

def fail (e : Error) : Heard :=
  { h with failed := true, noexec := h.noexec || e == Error.ENOEXEC }

end Heard

/-- The answers of a call that the load depends on.  A failing `unmap` is ignored,
    and so is a failing `protect` on the copy path. -/
def hear (b : Build) (f : Source → Bytes) (h : Heard) : (op : HostOp) → op.Res → Heard
  | .openPath _, (.ok o : Except Error Opened) => { h with files := h.files ++ [o], calls := 0 }
  | .openPath _, (.error e : Except Error Opened) => h.fail e
  | .readExactAt _ _ _, (.ok buf : Except Error (Buf _)) =>
      { h with calls := h.calls + 1, first := h.first.or (some buf.val) }
  | .readExactAt _ _ _, (.error e : Except Error (Buf _)) =>
      { h.fail e with unread := h.unread || h.inHeaders f }
  | .tryReserve _, true => { h with calls := h.calls + 1 }
  | .tryReserve _, false => { h with failed := true, unread := h.unread || h.inHeaders f }
  | .vm (.map ..), (.error e : Except Error Nat) => h.fail e
  | .vm (.protect ..), (.error e : Except Error Unit) => if h.mapped b then h.fail e else h
  | .vm (.write ..), (.error e : Except Error Unit) => h.fail e
  | .vm (.zero ..), (.error e : Except Error Unit) => h.fail e
  | .vm (.allocAligned ..), (.error e : Except Error Nat) => h.fail e
  | .stackWrite .., (.error e : Except Error Unit) => h.fail e
  | _, _ => h

def Truthful (f : Source → Bytes) : (op : HostOp) → op.Res → Prop
  | .readExactAt src off n, (.ok buf : Except Error (Buf n)) => buf.val = bytesAt (f src) off n
  | _, _ => True

/-- The environment, as far as the load can tell. -/
def hears (b : Build) (f : Source → Bytes) : Handler Host Heard := fun h op r h' =>
  Truthful f op r ∧ h' = hear b f h op r

def heardOf (b : Build) (f : Source → Bytes) (tr : List (Event Host)) : Heard :=
  tr.foldl (fun h e => hear b f h e.1 e.2) {}

/-! ### Calls whose failures are passed on -/

/-- The same files, with their headers behind: what cannot change any more once
    the headers have been read. -/
structure Calm (f : Source → Bytes) (h₀ h : Heard) : Prop where
  files : h.files = h₀.files
  first : h.first = h₀.first
  first_some : h₀.first.isSome = true
  unread : h.unread = false
  past : h.inHeaders f = false

/-- And no call has failed. -/
structure Clear (f : Source → Bytes) (h₀ h : Heard) : Prop extends Calm f h₀ h where
  failed : h.failed = false
  noexec : h.noexec = false

/-- The program passes on the errors it is given: it ends with `ENOEXEC` exactly if
    one of its calls was answered so. -/
def Passes {α : Type} (b : Build) (f : Source → Bytes) (h₀ : Heard) (p : Prog Host Error α) :
    Prop :=
  ∀ h, Clear f h₀ h → wp (hears b f) (fun _ _ => True) p
    (post (fun h' _ => Clear f h₀ h')
      (fun h' e => Calm f h₀ h' ∧ (e = Error.ENOEXEC ↔ h'.noexec = true)) True) h

section Passes

variable {b : Build} {f : Source → Bytes} {h₀ h : Heard} {α β : Type}

theorem Calm.fail (hc : Calm f h₀ h) (e : Error) : Calm f h₀ (h.fail e) :=
  ⟨hc.files, hc.first, hc.first_some, hc.unread, hc.past⟩

/-- The load goes by the error of a call that has failed. -/
theorem Clear.fail_iff (hc : Clear f h₀ h) (e : Error) :
    e = Error.ENOEXEC ↔ (h.fail e).noexec = true := by
  simp [Heard.fail, hc.noexec]

theorem Clear.mapped_eq (hc : Clear f h₀ h) : h.mapped b = h₀.mapped b := by
  rw [Heard.mapped, Heard.mapped, hc.files]

/-- One more call after the headers. -/
theorem Clear.called (hc : Clear f h₀ h) : Clear f h₀ { h with calls := h.calls + 1 } := by
  refine ⟨⟨hc.files, hc.first, hc.first_some, hc.unread, ?_⟩, hc.failed, hc.noexec⟩
  have hpast := hc.past
  simp only [Heard.inHeaders] at hpast ⊢
  cases hlast : h.files.getLast? with
  | none => rfl
  | some o =>
    rw [hlast] at hpast
    simp only [Option.any_some, decide_eq_false_iff_not] at hpast ⊢
    omega

theorem passes_pure (a : α) : Passes b f h₀ (pure a) := fun _ hc => hc

theorem Passes.bind {p : Prog Host Error α} {k : α → Prog Host Error β} (hp : Passes b f h₀ p)
    (hk : ∀ a, Passes b f h₀ (k a)) : Passes b f h₀ (p >>= k) :=
  fun h hc => wp_bind_post (hp h hc) fun h' a hc' => hk a h' hc'

/-- A check that does not fail with `ENOEXEC`. -/
theorem passes_lift {r : Outcome Error α} (hr : OnlyErr (· ≠ Error.ENOEXEC) r) :
    Passes b f h₀ (liftM r : Prog Host Error α) := by
  intro h hc
  refine wp_lift_post (fun _ _ => hc) ?_ (fun _ => trivial)
  intro e he
  exact ⟨hc.toCalm, by simp [hr e he, hc.noexec]⟩

theorem passes_err {e : Error} (he : e ≠ Error.ENOEXEC) :
    Passes b f h₀ (.done (.err e) : Prog Host Error α) :=
  fun _ hc => ⟨hc.toCalm, by simp [he, hc.noexec]⟩

/-- A call that has succeeded, or failed for the load to hear. -/
theorem passes_ask {op : HostOp} {meaning : op.Res → Outcome Error α}
    (hop : ∀ h r, h.mapped b = h₀.mapped b →
      (∃ a, meaning r = ok a ∧ hear b f h op r = h) ∨
        ∃ e, meaning r = err e ∧ hear b f h op r = h.fail e) :
    Passes b f h₀ (.ask (I := Host) op meaning) := by
  intro h hc
  refine wp_ask.mpr ⟨trivial, ?_⟩
  rintro r h' ⟨-, rfl⟩
  rcases hop h r hc.mapped_eq with ⟨a, hr, hh⟩ | ⟨e, hr, hh⟩
  · rw [hr, hh]
    exact hc
  · rw [hr, hh]
    exact ⟨hc.fail e, hc.fail_iff e⟩

theorem passes_map (place : Where) (len prot : Nat) (src : MapSrc) :
    Passes b f h₀ (Vm.map place len prot src) := by
  refine passes_ask fun h r _ => ?_
  cases r with
  | ok a => exact Or.inl ⟨a, rfl, rfl⟩
  | error e => exact Or.inr ⟨e, rfl, rfl⟩

theorem passes_write (a : Nat) (data : Bytes) : Passes b f h₀ (Vm.write a data) := by
  refine passes_ask fun h r _ => ?_
  cases r with
  | ok a => exact Or.inl ⟨a, rfl, rfl⟩
  | error e => exact Or.inr ⟨e, rfl, rfl⟩

theorem passes_zero (a len : Nat) : Passes b f h₀ (Vm.zero a len) := by
  refine passes_ask fun h r _ => ?_
  cases r with
  | ok a => exact Or.inl ⟨a, rfl, rfl⟩
  | error e => exact Or.inr ⟨e, rfl, rfl⟩

theorem passes_allocAligned (align len : Nat) : Passes b f h₀ (Vm.allocAligned align len) := by
  refine passes_ask fun h r _ => ?_
  cases r with
  | ok a => exact Or.inl ⟨a, rfl, rfl⟩
  | error e => exact Or.inr ⟨e, rfl, rfl⟩

theorem passes_stackWrite (a : Nat) (data : Bytes) : Passes b f h₀ (stackWrite a data) := by
  refine passes_ask fun h r _ => ?_
  cases r with
  | ok a => exact Or.inl ⟨a, rfl, rfl⟩
  | error e => exact Or.inr ⟨e, rfl, rfl⟩

theorem passes_icacheSync (a len : Nat) : Passes b f h₀ (Vm.icacheSync a len) :=
  passes_ask fun _ _ _ => Or.inl ⟨(), rfl, rfl⟩

/-- A failing `unmap` is not heard. -/
theorem passes_unmap (a len : Nat) : Passes b f h₀ (Vm.unmap a len) := by
  refine passes_ask fun h r _ => Or.inl ⟨r, rfl, ?_⟩
  cases r <;> rfl

/-- Room for a vector, once the headers have been read. -/
theorem wp_tryReserve (hc : Clear f h₀ h) (n : Nat) {e : Error} (he : e ≠ Error.ENOEXEC) :
    wp (hears b f) (fun _ _ => True) (tryReserve n e)
      (post (fun h' _ => Clear f h₀ h')
        (fun h' e => Calm f h₀ h' ∧ h'.failed = true ∧ (e = Error.ENOEXEC ↔ h'.noexec = true))
        True) h := by
  refine wp_ask.mpr ⟨trivial, ?_⟩
  rintro (_ | _) h' ⟨-, rfl⟩
  · refine ⟨⟨hc.files, hc.first, hc.first_some, ?_, hc.past⟩, rfl, by simp [hear, he, hc.noexec]⟩
    simp [hear, hc.unread, hc.past]
  · exact hc.called

/-- A read, once the headers have been read. -/
theorem wp_readExactAt (hc : Clear f h₀ h) (src : Source) (off n : Nat) :
    wp (hears b f) (fun _ _ => True) (readExactAt src off n)
      (post (fun h' buf => Clear f h₀ h' ∧ buf.val = bytesAt (f src) off n)
        (fun h' e => Calm f h₀ h' ∧ h'.failed = true ∧ (e = Error.ENOEXEC ↔ h'.noexec = true))
        True) h := by
  refine wp_ask.mpr ⟨trivial, ?_⟩
  rintro (e | buf) h' ⟨htrue, rfl⟩
  · refine ⟨⟨hc.files, hc.first, hc.first_some, ?_, hc.past⟩, rfl, hc.fail_iff e⟩
    simp [hear, hc.unread, hc.past]
  · have hfirst : h.first.or (some buf.val) = h.first :=
      Option.or_of_isSome (hc.first ▸ hc.first_some)
    simp only [hear, hfirst]
    exact ⟨hc.called, htrue⟩

theorem passes_tryReserve (n : Nat) {e : Error} (he : e ≠ Error.ENOEXEC) :
    Passes b f h₀ (tryReserve n e) :=
  fun _ hc => wp_post_mono (wp_tryReserve hc n he) (fun _ _ h => h) fun _ _ h => ⟨h.1, h.2.2⟩

theorem passes_readExactAt (src : Source) (off n : Nat) :
    Passes b f h₀ (readExactAt src off n) :=
  fun _ hc => wp_post_mono (wp_readExactAt hc src off n) (fun _ _ h => h.1)
    fun _ _ h => ⟨h.1, h.2.2⟩

theorem passes_forM {xs : List β} {body : β → Prog Host Error PUnit}
    (hbody : ∀ x, Passes b f h₀ (body x)) : Passes b f h₀ (xs.forM body) := by
  intro h hc
  exact wp_forM (fun _ => Clear f h₀) hc fun x _ h hc => hbody x h hc

end Passes

/-! ### The loader passes errors on -/

/-- A program that gives something back, unheard. -/
def Unheard {α : Type} (b : Build) (f : Source → Bytes) (p : Prog Host Error α) : Prop :=
  ∀ h, wp (hears b f) (fun _ _ => True) p (post (fun h' _ => h' = h) (fun _ _ => False) True) h

section Load

variable {b : Build} {f : Source → Bytes} {h₀ : Heard} {image : Image}

theorem onlyErr_range {S : Error → Prop} (seg : SegmentPlan) :
    OnlyErr S (seg.range : Outcome Error (Nat × Nat)) := by
  unfold SegmentPlan.range
  dsimp only
  split
  · exact U64.onlyErr_add.bind fun _ _ => onlyErr_ok
  · exact U64.onlyErr_add.bind fun _ _ => onlyErr_ok
  · exact onlyErr_ok

theorem onlyErr_alignUp {ε : Type} {S : ε → Prop} (v a : Nat) :
    OnlyErr S (alignUp v a : Outcome ε (Option Nat)) :=
  U64.onlyErr_sub.bind fun _ _ => onlyErr_ok

theorem onlyErr_alignDown {ε : Type} {S : ε → Prop} (v a : Nat) :
    OnlyErr S (Elf.alignDown v a : Outcome ε Nat) :=
  U64.onlyErr_sub.bind fun _ _ => onlyErr_ok

theorem passes_mapFilePart (fd : Int) (seg : SegmentPlan) : Passes b f h₀ (mapFilePart fd seg) := by
  unfold mapFilePart
  split
  · exact (passes_map _ _ _ _).bind fun _ => passes_pure ()
  · exact passes_pure ()

theorem passes_clearTail (seg : SegmentPlan) : Passes b f h₀ (clearTail seg) := by
  unfold clearTail
  split
  · exact passes_zero _ _
  · exact passes_pure ()

theorem passes_mapAnonPart (seg : SegmentPlan) : Passes b f h₀ (mapAnonPart seg) := by
  unfold mapAnonPart
  split
  · exact (passes_map _ _ _ _).bind fun _ => passes_pure ()
  · exact passes_pure ()

/-- On the mapped path a failing `protect` ends the load. -/
theorem passes_protect (hmap : h₀.mapped b = true) (a len prot : Nat) :
    Passes b f h₀ (do
      let r ← Vm.protect a len prot
      Outcome.ofExcept r : Prog Host Error Unit) := by
  change Passes b f h₀ (.ask (I := Host) (.vm (.protect a len prot)) Outcome.ofExcept)
  refine passes_ask fun h r hh => ?_
  cases r with
  | ok a => exact Or.inl ⟨a, rfl, rfl⟩
  | error e => exact Or.inr ⟨e, rfl, by simp [hear, hh, hmap]⟩

theorem passes_closeWriteWindow (hmap : h₀.mapped b = true) (seg : SegmentPlan) :
    Passes b f h₀ (closeWriteWindow seg) := by
  unfold closeWriteWindow
  split
  · refine (passes_lift (onlyErr_range seg)).bind fun _ => ?_
    exact (passes_lift U64.onlyErr_sub).bind fun _ => passes_protect hmap _ _ _
  · exact passes_pure ()

theorem passes_fillMapped (hmap : h₀.mapped b = true) (fd : Int) (p : LoadPlan) :
    Passes b f h₀ (fillMapped image fd p) := by
  refine Passes.bind (passes_forM fun seg => ?_) fun _ => passes_forM fun seg => ?_
  · refine (passes_lift onlyErr_index).bind fun _ => ?_
    refine (passes_lift (onlyErr_range seg)).bind fun _ => ?_
    refine (passes_mapFilePart fd seg).bind fun _ => ?_
    refine (passes_clearTail seg).bind fun _ => ?_
    exact (passes_mapAnonPart seg).bind fun _ => passes_closeWriteWindow hmap seg
  · refine (passes_lift onlyErr_index).bind fun ph => ?_
    split
    · split
      · exact passes_icacheSync _ _
      · exact passes_pure ()
    · exact passes_pure ()

theorem passes_copyLoop (src : Source) (ph : Phdr) (vaddr done : Nat) :
    Passes b f h₀ (copyLoop src ph vaddr done) := by
  induction hk : ph.pFilesz - done using Nat.strong_induction_on generalizing done with
  | h k ih =>
    subst hk
    unfold copyLoop
    split
    · rename_i hlt
      refine (passes_lift U64.onlyErr_sub).bind fun left => ?_
      refine (passes_lift U64.onlyErr_sub).bind fun _ => ?_
      refine (passes_lift U64.onlyErr_add).bind fun off => ?_
      refine (passes_readExactAt src off _).bind fun data => ?_
      refine (passes_lift U64.onlyErr_add).bind fun addr => ?_
      refine (passes_write addr _).bind fun _ => ?_
      refine (passes_lift U64.onlyErr_add).bind fun _ => ?_
      refine ih _ ?_ _ rfl
      simp only [COPY_CHUNK]
      omega
    · exact passes_pure ()

theorem passes_copySegment (src : Source) (p : LoadPlan) (seg : SegmentPlan) :
    Passes b f h₀ (copySegment image src b.page.bytes p seg) := by
  refine (passes_lift onlyErr_index).bind fun ph => ?_
  refine (passes_lift U64.onlyErr_add).bind fun vaddr => ?_
  refine (passes_copyLoop src ph vaddr 0).bind fun _ => ?_
  refine (passes_lift U64.onlyErr_add).bind fun mend => ?_
  refine (passes_lift (onlyErr_alignUp _ _)).bind fun up => ?_
  refine (passes_lift (onlyErr_okOr (by decide))).bind fun memEnd => ?_
  refine (passes_lift U64.onlyErr_add).bind fun zstart => ?_
  unfold clearRest
  split
  · exact (passes_lift U64.onlyErr_sub).bind fun _ => passes_zero _ _
  · exact passes_pure ()

/-- On the copy path a failing `protect` is not heard. -/
theorem passes_protectSegment (hmap : h₀.mapped b = false) (seg : SegmentPlan) :
    Passes b f h₀ (protectSegment seg) := by
  refine (passes_lift (onlyErr_range seg)).bind fun range => ?_
  refine (passes_lift U64.onlyErr_sub).bind fun len => ?_
  refine Passes.bind (p := Vm.protect range.1 len seg.prot) (passes_ask fun h r hh => ?_)
    fun _ => passes_pure ()
  refine Or.inl ⟨r, rfl, ?_⟩
  cases r with
  | ok a => rfl
  | error e => simp [hear, hh, hmap]

theorem onlyErr_execRanges (p : LoadPlan) :
    OnlyErr (· ≠ Error.ENOEXEC) (p.execRanges image : Outcome Error (List (Nat × Nat))) := by
  refine OnlyErr.bind (onlyErr_filterM fun seg => ?_) fun exec _ => onlyErr_mapM fun seg => ?_
  · exact onlyErr_index.bind fun _ _ => onlyErr_ok
  · exact (onlyErr_range seg).bind fun _ _ => U64.onlyErr_sub.bind fun _ _ => onlyErr_ok

theorem passes_fillCopied (hmap : h₀.mapped b = false) (src : Source) (p : LoadPlan) :
    Passes b f h₀ (fillCopied image src b.page.bytes p) := by
  refine (passes_tryReserve _ (by decide)).bind fun _ => ?_
  refine (passes_forM fun seg => passes_copySegment src p seg).bind fun _ => ?_
  refine (passes_lift (onlyErr_execRanges p)).bind fun _ => ?_
  refine (passes_forM fun r => passes_icacheSync _ _).bind fun _ => ?_
  exact passes_forM fun seg => passes_protectSegment hmap seg

theorem onlyErr_entryIsExecutable {S : Error → Prop} {p : LoadPlan} :
    OnlyErr S (entryIsExecutable image p : Outcome Error Bool) := by
  refine OnlyErr.bind (onlyErr_anyM fun seg => ?_) fun _ _ => onlyErr_ok
  exact (onlyErr_range seg).bind fun _ _ => onlyErr_ok

theorem unheard_unload (l : Loaded) : Unheard b f l.unload := by
  intro h
  unfold Loaded.unload
  split
  · refine ⟨trivial, ?_⟩
    rintro _ h' ⟨-, rfl⟩
    rfl
  · refine wp_bind.mpr ⟨trivial, ?_⟩
    rintro (_ | _) h' ⟨-, rfl⟩
    · rfl
    · rfl

/-- What follows starts with what was heard before. -/
theorem Unheard.next {α β : Type} {p : Prog Host Error α} {k : α → Prog Host Error β}
    {P : Heard → β → Prop} {E : Heard → Error → Prop} {h : Heard} (hp : Unheard b f p)
    (hk : ∀ a, wp (hears b f) (fun _ _ => True) (k a) (post P E True) h) :
    wp (hears b f) (fun _ _ => True) (p >>= k) (post P E True) h := by
  apply wp_bind_err (hp h) (fun _ _ hfalse => hfalse.elim)
  intro h' a hsame
  subst hsame
  exact hk a

/-- After an error something is given back, and the error is passed on. -/
theorem Passes.orUndo {α β : Type} {p : Prog Host Error α} {k : Except Error α → Prog Host Error β}
    {undo : Prog Host Error Unit} (hp : Passes b f h₀ p) (hok : ∀ a, Passes b f h₀ (k (.ok a)))
    (herr : ∀ e, k (.error e) = (do undo; .done (.err e))) (hundo : Unheard b f undo) :
    Passes b f h₀ (p.attempt >>= k) := by
  intro h hc
  refine wp_attempt_post (hp h hc) (fun h' a hc' => hok a h' hc') ?_
  intro h' e he
  rw [herr]
  exact hundo.next fun _ => he

theorem passes_fillOrUnload {fill : Prog Host Error Unit} (hfill : Passes b f h₀ fill)
    (l : Loaded) : Passes b f h₀ (fillOrUnload l fill) :=
  hfill.orUndo (fun _ => passes_pure l) (fun _ => rfl) (unheard_unload l)

theorem onlyErr_planSegment (bias i : Nat) :
    OnlyErr (· ≠ Error.ENOEXEC) (planSegment image b.page.bytes bias i) := by
  refine onlyErr_index.bind fun ph _ => ?_
  refine OnlyErr.bind (onlyErr_okOr (by decide)) fun vaddr _ => ?_
  refine OnlyErr.bind (onlyErr_alignDown _ _) fun mstart _ => ?_
  refine U64.onlyErr_sub.bind fun fdelta _ => ?_
  refine U64.onlyErr_add.bind fun mend _ => ?_
  refine OnlyErr.bind (onlyErr_alignUp _ _) fun up _ => ?_
  refine OnlyErr.bind (onlyErr_okOr (by decide)) fun memEnd _ => ?_
  refine OnlyErr.bind ?_ fun parts _ => ?_
  · unfold planFile
    split
    · refine U64.onlyErr_add.bind fun fend _ => ?_
      refine OnlyErr.bind (onlyErr_alignUp _ _) fun up _ => ?_
      refine OnlyErr.bind (onlyErr_okOr (by decide)) fun fmapEnd _ => ?_
      refine U64.onlyErr_sub.bind fun len _ => ?_
      refine U64.onlyErr_sub.bind fun off _ => ?_
      split
      · exact U64.onlyErr_sub.bind fun _ _ => onlyErr_ok
      · exact onlyErr_ok
    · exact onlyErr_ok
  · dsimp only
    split
    · exact U64.onlyErr_sub.bind fun _ _ => onlyErr_ok
    · exact onlyErr_ok

theorem onlyErr_plan (hv : image.Valid b.page) (hspan : SpanFits b.page image) (reserved : Bool)
    (pl : Placement) : OnlyErr (· ≠ Error.ENOEXEC) (plan reserved image b.page.bytes pl) := by
  unfold plan
  rw [hv.vaSpan_eq, if_pos hspan.1, ok_bind]
  dsimp only
  rw [segAlign_eq hv, ok_bind]
  refine U64.onlyErr_sub.bind fun span _ => ?_
  refine OnlyErr.bind ?_ fun placed _ => ?_
  · cases pl with
    | fixed => exact onlyErr_ok
    | «at» raw =>
      refine OnlyErr.bind (onlyErr_alignUp _ _) fun up _ => ?_
      refine OnlyErr.bind (onlyErr_okOr (by decide)) fun base _ => ?_
      refine OnlyErr.bind (onlyErr_okOr (by decide)) fun bias _ => ?_
      exact U64.onlyErr_sub.bind fun _ _ => U64.onlyErr_add.bind fun _ _ => onlyErr_ok
  · refine U64.onlyErr_add.bind fun base _ => ?_
    refine U64.onlyErr_add.bind fun fin _ => ?_
    refine OnlyErr.bind (onlyErr_guardErr (by decide)) fun _ _ => ?_
    refine OnlyErr.bind (onlyErr_mapM fun i => onlyErr_planSegment _ i) fun _ _ => ?_
    exact OnlyErr.bind (onlyErr_okOr (by decide)) fun _ _ => onlyErr_ok

/-- Without room for its segments a plan fails, but not with `ENOEXEC`. -/
theorem passes_makePlan (hv : image.Valid b.page) (hspan : SpanFits b.page image)
    (pl : Placement) : Passes b f h₀ (makePlan image b.page.bytes pl) := by
  intro h hc
  refine wp_bind.mpr (wp_ask.mpr ⟨trivial, ?_⟩)
  rintro (_ | _) h' ⟨-, rfl⟩
  · rw [andThen_ok]
    refine wp_lift_post ?_ ?_ (fun _ => trivial)
    · intro p hp
      exact absurd ((plan_eq_ok hv hspan.1 hspan.2).mp hp).1 (by simp)
    · intro e he
      have hne := onlyErr_plan hv hspan false pl e he
      refine ⟨⟨hc.files, hc.first, hc.first_some, ?_, hc.past⟩, by simp [hear, hne, hc.noexec]⟩
      simp [hear, hc.unread, hc.past]
  · rw [andThen_ok]
    exact passes_lift (onlyErr_plan hv hspan true pl) _ hc.called

theorem passes_reserveMapped (hv : image.Valid b.page) (hspan : SpanFits b.page image) :
    Passes b f h₀ (reserveMapped image b.page.bytes (image.lo b.page) (needOf b.page image)) := by
  rw [reserveMapped_eq hv hspan]
  split
  · exact (passes_map _ _ _ _).bind fun _ => passes_pure _
  · refine (passes_map _ _ _ _).bind fun got => ?_
    split
    · exact (passes_unmap _ _).bind fun _ => passes_err (by decide)
    · exact passes_pure _

/-- **`load` passes errors on** when the image fits the address space. -/
theorem passes_load (hv : image.Valid b.page) (hspan : SpanFits b.page image) {o : Opened}
    (ho : h₀.files.getLast? = some o) : Passes b f h₀ (Loader.load b image o.src o.fd) := by
  by_cases hmap : AddressSpace.Mapped b o.fd
  · obtain ⟨fd, hfd⟩ := Option.isSome_iff_exists.mp hmap.2
    have hmapped : h₀.mapped b = true := by simp [Heard.mapped, ho, hmap]
    rw [hfd] at hmap ⊢
    rw [AddressSpace.load_of_mapped hmap, loadMapped_eq hv, if_pos hspan]
    refine (passes_reserveMapped hv hspan).bind fun pl => ?_
    refine (passes_makePlan hv hspan pl).bind fun p => ?_
    exact passes_fillOrUnload (passes_fillMapped hmapped fd p) _
  · have hmapped : h₀.mapped b = false := by simp [Heard.mapped, ho, hmap]
    rw [AddressSpace.load_of_not_mapped hmap, loadCopied_eq hv]
    split
    · exact passes_err (by decide)
    · refine (passes_allocAligned _ _).bind fun raw => ?_
      refine (passes_makePlan hv hspan _).bind fun p => ?_
      exact passes_fillOrUnload (passes_fillCopied hmapped o.src p) _

/-- An image that does not fit is refused with `ENOEXEC`, before any call is made. -/
theorem load_of_not_spanFits (hv : image.Valid b.page) (hspan : ¬ SpanFits b.page image)
    {o : Opened} : Loader.load b image o.src o.fd =
      if AddressSpace.Mapped b o.fd ∨ image.ehdr.eType = ET_DYN then .done (.err Error.ENOEXEC)
      else .done (.err Error.ENOTSUP) := by
  by_cases hmap : AddressSpace.Mapped b o.fd
  · obtain ⟨fd, hfd⟩ := Option.isSome_iff_exists.mp hmap.2
    rw [if_pos (Or.inl hmap)]
    rw [hfd] at hmap ⊢
    rw [AddressSpace.load_of_mapped hmap, loadMapped_eq hv, if_neg hspan]
  · rw [AddressSpace.load_of_not_mapped hmap, loadCopied_eq hv, if_neg hspan]
    by_cases hdyn : image.ehdr.eType = ET_DYN
    · rw [if_neg (by simpa using hdyn), if_pos (Or.inr hdyn)]
    · rw [if_pos hdyn, if_neg (by simp [hmap, hdyn])]

end Load

/-! ### The stack builder passes errors on -/

section Stack

variable {b : Build} {f : Source → Bytes} {h₀ : Heard}

theorem passes_pushBytes (r : StackRange) (sp : Nat) (data : Bytes) :
    Passes b f h₀ (pushBytes r sp data) := by
  refine (passes_lift (onlyErr_okOr (by decide))).bind fun sp => ?_
  refine (passes_lift (onlyErr_guardErr (by decide))).bind fun _ => ?_
  exact (passes_stackWrite sp data).bind fun _ => passes_pure sp

theorem passes_pushCstr (r : StackRange) (sp : Nat) (s : Bytes) :
    Passes b f h₀ (pushCstr r sp s) := by
  refine (passes_pushBytes r sp [0]).bind fun sp => ?_
  split
  · exact passes_pure sp
  · exact passes_pushBytes r sp s

theorem passes_pushEach (r : StackRange) (sp : Nat) (ats : List Nat) (ss : List Bytes) :
    Passes b f h₀ (pushEach r sp ats ss) := by
  induction ss generalizing sp ats with
  | nil => exact passes_pure (sp, ats)
  | cons s rest ih => exact (passes_pushCstr r sp s).bind fun a => ih a _

theorem passes_pushStrings (r : StackRange) (sp : Nat) (ss : List Bytes) :
    Passes b f h₀ (pushStrings r sp ss) := by
  refine (passes_tryReserve _ (by decide)).bind fun _ => ?_
  exact (passes_pushEach r sp [] _).bind fun _ => passes_pure _

theorem passes_pushPlatform (r : StackRange) (sp : Nat) (platform : Bytes) :
    Passes b f h₀ (pushPlatform r sp platform) := by
  unfold pushPlatform
  split
  · exact passes_pure _
  · exact (passes_pushCstr r sp platform).bind fun _ => passes_pure _

theorem passes_writeWords (a : Nat) (vs : List Nat) : Passes b f h₀ (writeWords a vs) := by
  induction vs generalizing a with
  | nil => exact passes_pure a
  | cons v vs ih =>
    refine (passes_stackWrite a _).bind fun _ => ?_
    exact (passes_lift U64.onlyErr_add).bind fun a => ih a

theorem onlyErr_checkArgEnvSize (argv envp : List Bytes) (size : Nat) :
    OnlyErr (· ≠ Error.ENOEXEC) (checkArgEnvSize argv envp size) := by
  refine OnlyErr.bind (onlyErr_foldlM fun len s => ?_) fun len _ => ?_
  · exact U64.onlyErr_add.bind fun _ _ => onlyErr_okOr (by decide)
  · exact OnlyErr.bind (onlyErr_guardErr (by decide)) fun _ _ => onlyErr_ok

theorem onlyErr_blockSize (argc envc auxc : Nat) :
    OnlyErr (· ≠ Error.ENOEXEC) (blockSize argc envc auxc) := by
  refine U64.onlyErr_add.bind fun _ _ => U64.onlyErr_add.bind fun _ _ => ?_
  refine U64.onlyErr_add.bind fun _ _ => U64.onlyErr_add.bind fun _ _ => ?_
  refine U64.onlyErr_mul.bind fun _ _ => U64.onlyErr_mul.bind fun _ _ => ?_
  exact U64.onlyErr_add

theorem passes_buildStack (r : StackRange) (argv envp : List Bytes) (aux : AuxvSpec) :
    Passes b f h₀ (buildStack r argv envp aux) := by
  refine (passes_lift U64.onlyErr_sub).bind fun size => ?_
  refine (passes_lift (onlyErr_checkArgEnvSize argv envp size)).bind fun _ => ?_
  refine (passes_pushPlatform r _ _).bind fun platform => ?_
  refine (passes_pushCstr r _ _).bind fun execfn => ?_
  refine (passes_pushBytes r _ _).bind fun random => ?_
  refine (passes_pushStrings r _ _).bind fun envps => ?_
  refine (passes_pushStrings r _ _).bind fun argvs => ?_
  refine (passes_lift (onlyErr_blockSize _ _ _)).bind fun block => ?_
  refine (passes_lift (onlyErr_okOr (by decide))).bind fun low => ?_
  refine (passes_lift (onlyErr_guardErr (by decide))).bind fun _ => ?_
  refine (passes_writeWords _ _).bind fun a => ?_
  refine (passes_writeWords _ _).bind fun a => ?_
  refine (passes_writeWords _ _).bind fun a => ?_
  refine (passes_writeWords _ _).bind fun a => ?_
  refine (passes_writeWords _ _).bind fun a => ?_
  exact (passes_writeWords _ _).bind fun _ => passes_pure _

end Stack

end ElfLoader.Binfmt
