import ElfLoader.Files
import ElfLoader.ShimLoad

/-!
# No path leaks a descriptor

`kernelFiles` keeps the descriptors that `load_program` has opened and not closed.  The
routines of `sys.rs` carry out the calls for an open image with its descriptor alone, and
`elfrs_open_ro` and `elfrs_close` come in pairs, on every path, whatever the kernel answers.
-/

namespace ElfLoader.Shim

open ElfLoader Outcome Elf Layout Loader AddressSpace FileRead Program
open ElfLoader.App hiding loadProgram
open ElfLoader.Prog hiding run

variable {ε α : Type}

/-! ### The descriptors of the kernel -/

/-- A file that is opened gets a descriptor that is neither one of `own` nor one of
    `others`; a call that fails has an error number. -/
def FileAnswers (others own : List Int32) : (op : KernelOp) → op.Res → Prop
  | .openRdonly _, (fd, e) => (0 ≤ fd ∧ fd ∉ own ∧ fd ∉ others) ∨ (fd < 0 ∧ 0 < e)
  | .fstat _, (rc, e, _) => rc < 0 → 0 < e
  | _, _ => True

def openAfter (own : List Int32) : (op : KernelOp) → op.Res → List Int32
  | .openRdonly _, (fd, _) => if 0 ≤ fd then fd :: own else own
  | .close fd, _ => own.erase fd
  | _, _ => own

/-- The kernel, with the descriptors that were opened and not closed; `others` are open
    elsewhere. -/
def kernelFiles (pg : PageSize) (k : KernelWorld) (others : List Int32) :
    Handler Kernel (Space × List Int32) := fun s op r s' =>
  kernelStep pg k s.1 op r s'.1 ∧ FileAnswers others s.2 op r ∧ s'.2 = openAfter s.2 op r

/-- Descriptors are used while they are open, and only those that were opened here. -/
def FileSafe (s : Space × List Int32) : KernelOp → Prop
  | .mmap _ _ _ flags fd _ => flags.anonymous = false → fd ∈ s.2
  | .fstat fd => fd ∈ s.2
  | .close fd => fd ∈ s.2
  | .file (.pread fd _ _) => fd ∈ s.2
  | _ => True

/-- A call that uses no descriptor but one of `own`, and neither opens nor closes one. -/
def OnlyUses (own : List Int32) : KernelOp → Prop
  | .mmap _ _ _ flags fd _ => flags.anonymous = false → fd ∈ own
  | .fstat fd => fd ∈ own
  | .file (.pread fd _ _) => fd ∈ own
  | .openRdonly _ => False
  | .close _ => False
  | _ => True

theorem OnlyUses.safe {s : Space} {own : List Int32} {op : KernelOp} (h : OnlyUses own op) :
    FileSafe (s, own) op := by
  cases op with
  | close fd => exact h.elim
  | openRdonly path => exact h.elim
  | file op =>
    cases op
    exact h
  | mmap => exact h
  | fstat => exact h
  | _ => trivial

theorem OnlyUses.after {own : List Int32} {op : KernelOp} (h : OnlyUses own op) (r : op.Res) :
    openAfter own op r = own := by
  cases op with
  | close fd => exact h.elim
  | openRdonly path => exact h.elim
  | _ => rfl

section Descriptors

variable {pg : PageSize} {k : KernelWorld} {others own : List Int32} {s : Space} {cfg : Config}

/-- What is known of a program on the address space holds where descriptors are watched. -/
theorem wp_onlyUses {p : Prog Kernel ε α} {pre : Space → KernelOp → Prop}
    {Q : Space → Outcome ε α → Prop} {F : α → Prop}
    (hp : wp (kernelStep pg k) pre p Q s)
    (hcalls : Calls (fun _ _ => True) (OnlyUses own) p F) :
    wp (kernelFiles pg k others) FileSafe p (fun t r => Q t.1 r ∧ t.2 = own) (s, own) := by
  induction p generalizing s with
  | done r => exact ⟨hp, rfl⟩
  | call op next ih =>
    constructor
    · exact hcalls.1.safe
    rintro r ⟨t, own'⟩ ⟨hstep, -, hown⟩
    have hsame : own' = own := hown.trans (hcalls.1.after r)
    subst hsame
    exact ih r (hp.2 r t hstep) (hcalls.2 r () trivial)

/-! ### What the routines of `sys.rs` use -/

abbrev Uses (own : List Int32) (p : Prog Kernel ε α) : Prop :=
  Calls (fun _ _ => True) (OnlyUses own) p fun _ => True

theorem uses_get {op : KernelOp} (h : OnlyUses own op) : Uses own (get op : Prog Kernel ε op.Res) :=
  calls_ask (I := Kernel) h fun _ _ _ _ => trivial

theorem uses_get_bind {op : KernelOp} {f : op.Res → Prog Kernel ε α} (h : OnlyUses own op)
    (hf : ∀ r, Uses own (f r)) : Uses own (get op >>= f) :=
  (uses_get h).bind fun r _ => hf r

theorem uses_lift (r : Outcome ε α) : Uses own (liftM r : Prog Kernel ε α) :=
  calls_lift fun _ _ => trivial

theorem uses_answer {p : Prog Kernel Errno α} (hp : Uses own p) : Uses own (answer p) := by
  apply hp.attempt.bind
  intro r _
  cases r with
  | ok a => trivial
  | error e =>
    change Calls _ _ (if h : 0 < e then _ else _) _
    split
    · trivial
    · trivial

theorem uses_map {place : Where} {len prot : Nat} {src : MapSrc}
    (hfd : ∀ fd off, src = .file fd off → Int32.ofInt fd ∈ own) :
    Uses own (UkVm.map cfg place len prot src) := by
  unfold UkVm.map
  rcases hsrc : UkVm.sourceArgs src with ⟨kind, fd, off⟩
  refine Calls.bind (F := fun _ => True) ?_ ?_
  · unfold elfrsMap
    split
    · apply uses_get_bind
      · intro hanon
        cases src with
        | anon =>
          cases hsrc
          cases hanon
        | file fd' off' =>
          cases hsrc
          exact hfd fd' off' rfl
      · rintro ⟨got, e⟩
        cases got with
        | none => trivial
        | some raw => trivial
    · trivial
  · rintro ⟨got, e⟩ _
    dsimp only
    split
    · exact uses_lift _
    · trivial

theorem uses_unmap {addr len : Nat} : Uses own (UkVm.unmap cfg addr len) := by
  refine Calls.bind (F := fun _ => True) ?_ fun rc _ => uses_lift _
  unfold elfrsUnmap
  split
  · exact uses_get_bind trivial fun _ => trivial
  · trivial

theorem uses_protect {addr len prot : Nat} : Uses own (UkVm.protect cfg addr len prot) := by
  refine Calls.bind (F := fun _ => True) ?_ fun rc _ => uses_lift _
  unfold elfrsProtect
  split
  · exact uses_get_bind trivial fun _ => trivial
  · split
    · apply uses_get_bind
      · trivial
      intro isErr
      split
      · trivial
      · exact uses_get trivial
    · trivial

theorem uses_icacheSync {addr len : Nat} :
    Uses own (elfrsIcacheSync cfg addr len : Prog Kernel ε Unit) := by
  unfold elfrsIcacheSync
  split
  · split
    · trivial
    · exact uses_get trivial
  · trivial

theorem uses_allocAligned {align len : Nat} : Uses own (UkVm.allocAligned align len) := by
  apply uses_get_bind
  · trivial
  intro p
  split
  · trivial
  · trivial

theorem uses_readLoop {fd : Int32} (hfd : fd ∈ own) (off len done : Nat) (buf : Bytes) :
    Uses own ((readLoop fd off len done buf).via fun op => get (.file op)) := by
  -- on what is left to read
  induction hleft : len - done using Nat.strongRecOn generalizing done buf with
  | ind left ih =>
    rw [readLoop]
    split
    · split
      · constructor
        · exact hfd
        rintro ⟨n, data⟩ _ -
        change Calls _ _ (via _ (if n = 0 then _ else if n < 0 then _ else _)) _
        split
        · trivial
        · split
          · exact uses_lift _
          · rename_i hzero hneg
            have hpos := toNatClampNeg_pos hzero hneg
            split
            · exact ih _ (by omega) _ _ rfl
            · trivial
      · trivial
    · trivial

theorem uses_readBuf {fd : Int32} (hfd : fd ∈ own) (off n : Nat) :
    Uses own (readBuf fd off n) := by
  apply (uses_readLoop hfd _ _ _ _).bind
  intro bytes _
  split
  · trivial
  · trivial

/-! ### Opening and closing -/

/-- From this address space and these descriptors, `p` ends with `Z`, or with an error number
    and `E`. -/
abbrev Ends (pg : PageSize) (k : KernelWorld) (others : List Int32) (t : Space × List Int32)
    (p : Prog Kernel Errno α) (Z : Space × List Int32 → α → Prop)
    (E : Space × List Int32 → Prop) : Prop :=
  wp (kernelFiles pg k others) FileSafe p (post Z (fun t' e => 0 < e ∧ E t') False) t

theorem errNeg_neg {e : Errno} (h : 0 < e) : (errNeg (-e) : Outcome Errno α) = err e := by
  have hne : -e ≠ Int32.minValue := by
    intro heq
    have hback := congrArg (- ·) heq
    simp only [Int32.neg_neg] at hback
    rw [hback] at h
    exact absurd h (by decide)
  rw [errNeg, if_neg hne, Int32.neg_neg]

theorem ends_cString (path : Bytes) :
    Ends pg k others (s, own) (cString path) (fun t _ => t = (s, own)) (· = (s, own)) := by
  refine wp_lift_bind ?_ ?_ fun hpanic => absurd hpanic guardErr_ne_panic
  · intro _ _
    constructor
    · trivial
    rintro room ⟨t, own'⟩ ⟨⟨-, ht⟩, -, hown⟩
    have hsame : (t, own') = (s, own) := Prod.ext ht hown
    cases room with
    | true => exact hsame
    | false => exact ⟨by decide, hsame⟩
  · intro e he
    rcases guardErr_eq_err.mp he with ⟨-, rfl⟩
    exact ⟨by decide, rfl⟩

/-- A fresh descriptor, or an error number. -/
def OpenRo (cfg : Config) (others own : List Int32) (s : Space) (t : Space × List Int32)
    (fd : Int32) : Prop :=
  (0 ≤ fd ∧ fd ∉ own ∧ fd ∉ others ∧ cfg.haveVfs = true ∧ t = (s, fd :: own)) ∨
    (fd < 0 ∧ (∃ e, 0 < e ∧ fd = -e) ∧ t = (s, own))

theorem ends_openRo (path : Bytes) :
    Ends pg k others (s, own) (elfrsOpenRo cfg path) (OpenRo cfg others own s) (fun _ => False) := by
  unfold elfrsOpenRo
  split
  · rename_i hvfs
    constructor
    · trivial
    rintro ⟨fd, e⟩ ⟨t, own'⟩ ⟨⟨-, ht⟩, hans, hown⟩
    change OpenRo cfg others own s (t, own') (if fd < 0 then -e else fd)
    rcases hans with ⟨hfd, hfresh, hother⟩ | ⟨hneg, hpos⟩
    · rw [if_neg (Int32.not_lt.mpr hfd)]
      have hopen : own' = fd :: own := hown.trans (if_pos hfd)
      exact Or.inl ⟨hfd, hfresh, hother, hvfs, Prod.ext ht hopen⟩
    · rw [if_pos hneg]
      have hnone : own' = own := hown.trans (if_neg (Int32.not_le.mpr hneg))
      exact Or.inr ⟨neg_neg_of_pos hpos, ⟨e, hpos, rfl⟩, Prod.ext ht hnone⟩
  · exact Or.inr ⟨by decide, ⟨_, by decide, rfl⟩, rfl⟩

section Open

variable {fd : Int32}

theorem ends_fsize (hfd : fd ∈ own) :
    Ends pg k others (s, own) (elfrsFsize cfg fd) (fun t _ => t = (s, own)) (fun _ => False) := by
  unfold elfrsFsize
  split
  · constructor
    · exact hfd
    rintro r ⟨t, own'⟩ ⟨⟨-, ht⟩, -, hown⟩
    exact Prod.ext ht hown
  · rfl

theorem ends_checkExecBit (hfd : fd ∈ own) :
    Ends pg k others (s, own) (checkExecBit cfg fd) (fun t _ => t = (s, own)) (· = (s, own)) := by
  unfold checkExecBit elfrsFdIsExec
  split
  · split
    · constructor
      · exact hfd
      rintro ⟨rc, e, st⟩ ⟨t, own'⟩ ⟨⟨-, ht⟩, hans, hown⟩
      have hsame : (t, own') = (s, own) := Prod.ext ht hown
      change post _ _ _ _ (fromC (if rc < 0 then -e else if !st.isReg then -errno EACCES
        else if !st.ixusr then -errno EACCES else 0))
      split
      · rename_i hneg
        rw [fromC_neg (hans hneg)]
        exact ⟨hans hneg, hsame⟩
      · split
        · exact ⟨by decide, hsame⟩
        · split
          · exact ⟨by decide, hsame⟩
          · exact hsame
    · exact ⟨by decide, rfl⟩
  · rfl

theorem ends_close (hvfs : cfg.haveVfs = true) (hfd : 0 ≤ fd) :
    wp (kernelFiles pg k others) FileSafe (elfrsClose cfg fd : Prog Kernel ε Unit)
      (post (fun t _ => t = (s, own)) (fun _ _ => False) False) (s, fd :: own) := by
  unfold elfrsClose
  rw [hvfs, decide_eq_true hfd, Bool.and_true, if_pos rfl]
  constructor
  · exact List.mem_cons_self
  rintro r ⟨t, own'⟩ ⟨⟨-, ht⟩, -, hown⟩
  have hgone : own' = own := hown.trans (List.erase_cons_head ..)
  exact Prod.ext ht hgone

/-- What opening a file leaves: a descriptor of its own, or what was there. -/
def OpenedOne (cfg : Config) (own : List Int32) (s : Space) (t : Space × List Int32)
    (opened : Opened) : Prop :=
  ∃ fd size, 0 ≤ fd ∧ fd ∉ own ∧ cfg.haveVfs = true ∧ t = (s, fd :: own) ∧
    opened = openedOf cfg fd size

theorem ends_open (opener : VfsOpener) (path : Bytes) :
    Ends pg k others (s, own) (opener.open cfg path) (OpenedOne cfg own s) (· = (s, own)) := by
  unfold VfsOpener.open fileOpen
  rw [bind_assoc]
  apply wp_bind_err (ends_cString path) fun _ _ h => h
  rintro _ _ rfl
  rw [bind_assoc]
  apply wp_bind_err (ends_openRo path) fun _ _ h => h.2.elim
  rintro _ fd (⟨hfd, hfresh, -, hvfs, rfl⟩ | ⟨hneg, ⟨e, hpos, rfl⟩, rfl⟩)
  · rw [if_neg (Int32.not_lt.mpr hfd), bind_assoc]
    have hmem : fd ∈ fd :: own := List.mem_cons_self
    apply wp_bind_err (ends_fsize hmem) fun _ _ h => h.2.elim
    rintro _ size rfl
    have hopened : OpenedOne cfg own s (s, fd :: own)
        (openedOf cfg fd (if 0 ≤ size then some size.toNatClampNeg else none)) :=
      ⟨fd, _, hfd, hfresh, hvfs, rfl, rfl⟩
    cases opener with
    | binfmt => exact hopened
    | app =>
      change wp _ _ ((checkExecBit cfg fd).attempt >>= _) _ _
      apply wp_bind.mpr
      apply wp_attempt.mpr
      apply wp_mono (ends_checkExecBit hmem)
      intro t r hr
      cases r with
      | ok a =>
        rcases hr with rfl
        exact hopened
      | panic => exact hr
      | err e =>
        rcases hr with ⟨hpos, rfl⟩
        apply wp_bind_err (ends_close hvfs hfd) fun _ _ h => h.elim
        rintro _ _ rfl
        exact ⟨hpos, rfl⟩
  · rw [if_pos hneg, errNeg_neg hpos]
    exact ⟨hpos, rfl⟩

end Open

end Descriptors

/-! ### Every descriptor is closed -/

def fdOf (opened : Opened) : Int32 := .ofNat opened.src.handle

/-- The images that are open are the descriptors that are. -/
structure Holds (cfg : Config) (own : List Opened) (t : Space × List Int32) : Prop where
  fds : t.2 = own.map fdOf
  nodup : t.2.Nodup
  opened : ∀ o ∈ own, ∃ fd size, 0 ≤ fd ∧ cfg.haveVfs = true ∧ o = openedOf cfg fd size
  blocks : (t.1.blocks.map Prod.fst).Nodup

theorem fdOf_openedOf {cfg : Config} {fd : Int32} {size : Option Nat} (h : 0 ≤ fd) :
    fdOf (openedOf cfg fd size) = fd :=
  Int32.ofNat_toNatClampNeg fd h

section Holds

variable {cfg : Config} {k : KernelWorld} {others : List Int32} {own : List Opened}
  {s : Space} {fds : List Int32}

/-- A call of the loader for an image that is open. -/
theorem holds_carries {op : HostOp} {p : Prog Kernel Empty op.Res}
    (h : Holds cfg own (s, fds)) (hp : CarriesOut cfg k s op p) (huses : Uses fds p) :
    wp (kernelFiles cfg.page k others) FileSafe p
      (post (fun t r => Grants cfg.page op r ∧ Holds cfg own t) (fun _ _ => True) False) (s, fds) := by
  apply wp_mono (wp_onlyUses hp huses)
  rintro ⟨t, fds'⟩ r ⟨hr, rfl⟩
  cases r with
  | ok a =>
    rcases hr with ⟨s', hstep, rfl, hblocks⟩
    exact ⟨⟨granted_of_answers hstep.1.1, hstep.2⟩, h.fds, h.nodup, h.opened, hblocks⟩
  | err e => trivial
  | panic => exact hr

theorem Holds.mem {opened : Opened} (h : Holds cfg own (s, fds)) (ho : opened ∈ own) :
    fdOf opened ∈ fds := by
  have hfds : fds = own.map fdOf := h.fds
  rw [hfds]
  exact List.mem_map_of_mem ho

/-- The descriptor to map an image from is its own. -/
theorem Holds.mapped {opened : Opened} (h : Holds cfg own (s, fds)) (ho : opened ∈ own) {fd : Int}
    (hfd : opened.fd = some fd) : Int32.ofInt fd ∈ fds := by
  rcases h.opened opened ho with ⟨fd', size, hpos, -, rfl⟩
  have hmem := h.mem ho
  rw [fdOf_openedOf hpos] at hmem
  unfold openedOf at hfd
  split at hfd
  · cases hfd
    rwa [Int32.ofInt_toInt]
  · cases hfd

/-- One call of the kernel that touches no descriptor. -/
theorem holds_get {op : KernelOp} {r : op.Res} {t : Space × List Int32}
    (h : Holds cfg own (s, fds)) (hstep : kernelFiles cfg.page k others (s, fds) op r t)
    (huses : OnlyUses fds op)
    (hblocks : ((kernelAfter cfg.page k s op r).blocks.map Prod.fst).Nodup) :
    Holds cfg own t := by
  rcases t with ⟨t, fds'⟩
  rcases hstep with ⟨⟨-, ht⟩, -, hfds⟩
  have hsame : fds' = fds := hfds.trans (huses.after r)
  subst hsame
  refine ⟨h.fds, h.nodup, h.opened, ?_⟩
  change (t.blocks.map Prod.fst).Nodup
  rw [show t = _ from ht]
  exact hblocks

/-- **A call for an open image** is carried out with its descriptor alone. -/
theorem holds_host {opened : Opened} {op : HostOp} (opener : VfsOpener) (stack : AppStack)
    (h : Holds cfg own (s, fds)) (ho : opened ∈ own)
    (hcall : LoadCall cfg.page opened.src opened.fd op) :
    wp (kernelFiles cfg.page k others) FileSafe (sys cfg opener stack op)
      (post (fun t r => Grants cfg.page op r ∧ Holds cfg own t) (fun _ _ => True) False) (s, fds) := by
  have hs : (s.blocks.map Prod.fst).Nodup := h.blocks
  cases op with
  | vm op =>
    cases op with
    | map at' len prot src =>
      rcases hcall with ⟨hrange, hat, hprot, hsrc⟩
      have hmap : CarriesOut cfg k s (.vm (.map at' len prot src))
          (answer (UkVm.map cfg at' len prot src)) :=
        carries_map hs hrange hat hprot fun fd off hfile => (hsrc fd off hfile).2
      apply holds_carries h hmap
      apply uses_answer
      apply uses_map
      intro fd off hfile
      exact h.mapped ho (hsrc fd off hfile).1
    | unmap addr len => exact holds_carries h (carries_unmap hs hcall) (uses_answer uses_unmap)
    | protect addr len prot =>
      exact holds_carries h (carries_protect hs hcall.1 hcall.2) (uses_answer uses_protect)
    | write addr data =>
      constructor
      · trivial
      intro r t hstep
      exact ⟨⟨trivial, trivial⟩, holds_get h hstep trivial hs⟩
    | zero addr len =>
      constructor
      · trivial
      intro r t hstep
      exact ⟨⟨trivial, trivial⟩, holds_get h hstep trivial hs⟩
    | icacheSync addr len => exact holds_carries h (carries_icacheSync hs hcall) uses_icacheSync
    | allocAligned align len =>
      exact holds_carries h (carries_allocAligned hs hcall.1 hcall.2)
        (uses_answer uses_allocAligned)
    | freeAligned addr len =>
      constructor
      · trivial
      intro r t hstep
      refine ⟨⟨trivial, trivial⟩, holds_get h hstep trivial ?_⟩
      exact hs.sublist (List.eraseP_sublist.map _)
  | openPath path => exact hcall.elim
  | readExactAt src off n =>
    rcases hcall with ⟨rfl, hoff, hn⟩
    exact holds_carries h (carries_readExactAt hs hoff hn)
      (uses_answer (uses_readBuf (h.mem ho) _ _))
  | tryReserve n => exact holds_carries h (carries_tryReserve hs) (uses_get trivial)
  | stackWrite addr data => exact hcall.elim

/-- A file that is opened gets a descriptor that no other open image has. -/
theorem holds_open (opener : VfsOpener) (path : Bytes) (h : Holds cfg own (s, fds)) :
    wp (kernelFiles cfg.page k others) FileSafe (answer (opener.open cfg path))
      (post (fun t r => ∃ own', ownedStep cfg.page own (.host (.openPath path)) r own' ∧
        Holds cfg own' t) (fun _ _ => True) False) (s, fds) := by
  apply wp_answer
  apply wp_post_mono (ends_open opener path)
  · rintro t opened ⟨fd, size, hfd, hfresh, hvfs, rfl, rfl⟩
    have hfds : fds = own.map fdOf := h.fds
    have hof : fdOf (openedOf cfg fd size) = fd := fdOf_openedOf hfd
    refine ⟨_, ⟨?_, rfl⟩, ?_, ?_, ?_, h.blocks⟩
    · intro o ho heq
      apply hfresh
      have hsame : fdOf o = fd := (congrArg Int32.ofNat heq).trans hof
      rw [← hsame]
      exact h.mem ho
    · change fd :: fds = fdOf _ :: own.map fdOf
      rw [hof, hfds]
    · exact List.nodup_cons.mpr ⟨hfresh, h.nodup⟩
    · intro o ho
      rcases List.mem_cons.mp ho with rfl | ho
      · exact ⟨fd, size, hfd, hvfs, rfl⟩
      · exact h.opened o ho
  · rintro t e ⟨hpos, rfl⟩
    exact ⟨hpos, fun e' => ⟨own, ⟨⟨trivial, trivial⟩, rfl⟩, h⟩⟩

/-- Where no two images share a descriptor, an image goes with its descriptor. -/
theorem map_erase_fdOf {opened : Opened} (hnodup : (own.map fdOf).Nodup) (ho : opened ∈ own) :
    (own.map fdOf).erase (fdOf opened) = (own.erase opened).map fdOf := by
  induction own with
  | nil => cases ho
  | cons o rest ih =>
    rw [List.map_cons, List.nodup_cons] at hnodup
    by_cases heq : o = opened
    · rw [heq, List.map_cons, List.erase_cons_head, List.erase_cons_head]
    · have hrest : opened ∈ rest := by
        rcases List.mem_cons.mp ho with rfl | hrest
        · exact absurd rfl heq
        · exact hrest
      have hne : fdOf o ≠ fdOf opened := by
        intro hsame
        exact hnodup.1 (hsame ▸ List.mem_map_of_mem hrest)
      rw [List.map_cons, List.erase_cons_tail (by simpa using hne),
        List.erase_cons_tail (by simpa using heq), List.map_cons, ih hnodup.2 hrest]

/-- The image that goes out of scope gives its descriptor back. -/
theorem holds_drop {opened : Opened} (h : Holds cfg own (s, fds)) (ho : opened ∈ own) :
    wp (kernelFiles cfg.page k others) FileSafe
      (elfrsClose cfg (fdOf opened) : Prog Kernel Empty Unit)
      (post (fun t _ => Holds cfg (own.erase opened) t) (fun _ _ => True) False) (s, fds) := by
  have hfds : fds = own.map fdOf := h.fds
  have hnodup : fds.Nodup := h.nodup
  rcases h.opened opened ho with ⟨fd, size, hfd, hvfs, heq⟩
  have hof : fdOf opened = fd := by
    rw [heq]
    exact fdOf_openedOf hfd
  unfold elfrsClose
  rw [hof, hvfs, decide_eq_true hfd, Bool.and_true, if_pos rfl]
  constructor
  · rw [← hof]
    exact h.mem ho
  rintro r ⟨t, fds'⟩ ⟨⟨-, ht⟩, -, hown⟩
  have hgone : fds' = fds.erase fd := hown
  have herase : (own.map fdOf).erase fd = (own.erase opened).map fdOf := by
    rw [← hof]
    exact map_erase_fdOf (hfds ▸ hnodup) ho
  refine ⟨?_, ?_, ?_, ?_⟩
  · exact hgone.trans ((congrArg (List.erase · fd) hfds).trans herase)
  · change fds'.Nodup
    rw [hgone]
    exact hnodup.erase fd
  · intro o ho'
    exact h.opened o (List.mem_of_mem_erase ho')
  · change (t.blocks.map Prod.fst).Nodup
    rw [show t = s from ht]
    exact h.blocks

end Holds

theorem sysOwned_implements (cfg : Config) (opener : VfsOpener) (stack : AppStack)
    (k : KernelWorld) (others : List Int32) :
    Implements (ownedStep cfg.page) (OwnedCall cfg.page) (sysOwned cfg opener stack) (Holds cfg)
      (kernelFiles cfg.page k others) FileSafe where
  call := by
    rintro own ⟨s, fds⟩ op h hcall
    cases op with
    | drop opened =>
      apply wp_post_mono (holds_drop h hcall)
      · exact fun t _ hdropped => ⟨_, rfl, hdropped⟩
      · exact fun _ _ _ => trivial
    | host op =>
      cases op with
      | openPath path => exact holds_open opener path h
      | stackWrite addr data =>
        rcases hcall with ⟨o, ho, hcall⟩
        exact hcall.elim
      | _ =>
        rcases hcall with ⟨o, ho, hcall⟩
        apply wp_post_mono (holds_host opener stack h ho hcall)
        · rintro t r ⟨hgrants, hholds⟩
          exact ⟨own, ⟨hgrants, rfl⟩, hholds⟩
        · exact fun _ _ _ => trivial

/-- **No path leaks a descriptor.**  In every run of `load_program` through the shim, on
    every kernel, descriptors are used only between their `open` and their `close`, and only
    those of this run; at the end none is left. -/
theorem load_program_closes_files (cfg : Config) (opener : VfsOpener) (stack : AppStack)
    (k : KernelWorld) (others : List Int32) (path : Bytes) {s : Space}
    (hs : (s.blocks.map Prod.fst).Nodup) :
    let b : Build := ⟨cfg.arch, cfg.page, cfg.libposixMmap⟩
    let p := (loadProgramOwned b path).via (sysOwned cfg opener stack)
    (loadProgramOwned b path).via forgetDrops = loadProgram b path ∧
    (∀ tr t op next, Reaches (kernelFiles cfg.page k others) (s, []) p tr t (.call op next) →
      FileSafe t op) ∧
    ∀ tr t v, Reaches (kernelFiles cfg.page k others) (s, []) p tr t (.done v) →
      v ≠ panic → t.2 = [] := by
  intro b p
  have hstart : Holds cfg [] (s, []) := ⟨rfl, List.nodup_nil, (fun _ ho => nomatch ho), hs⟩
  have hwp := (sysOwned_implements cfg opener stack k others).wp hstart
    (leavesOpen_loadProgram b path)
  refine ⟨loadProgramOwned_forget b path, ?_, ?_⟩
  · intro tr t op next hrun
    exact (wp_reaches hwp hrun).1
  · intro tr t v hrun hv
    have hend : ∃ own, Holds cfg own t ∧ _ := wp_reaches hwp hrun
    rcases hend with ⟨own, hholds, hleft⟩
    have hnone : own = [] := by
      cases v with
      | ok a => exact hleft
      | err e => exact hleft
      | panic => exact absurd rfl hv
    rw [hholds.fds, hnone]
    rfl

/-! ### A program with an interpreter -/

theorem length_dynElf : dynElf.length < 2 ^ 63 := by
  decide +kernel

/-- A kernel with the interpreter behind descriptor 4, and the program behind the others. -/
def dynKernel : KernelWorld :=
  { smallKernel with
    file := fun fd => if fd = 4 then smallKernel.file fd else ⟨dynElf, length_dynElf⟩ }

def descriptorOf (path : Bytes) : Int32 := if path = LD then 4 else 3

/-- Both may be executed, and are opened one at a time. -/
def dynAnswer (s : Space × List Int32) : (op : KernelOp) → op.Res
  | .openRdonly path => if descriptorOf path ∈ s.2 then (-1, 24) else (descriptorOf path, 0)
  | .fstat fd => (0, 0, ⟨.ofNat (dynKernel.file fd).val.length, true, true⟩)
  | op => kernelAnswer (machine dynElf 16) dynKernel page4K s.1 op

theorem dynAnswer_ok (s : Space × List Int32) (op : KernelOp) :
    KernelAnswers page4K dynKernel s.1 op (dynAnswer s op) ∧
      FileAnswers [] s.2 op (dynAnswer s op) := by
  have hrest : KernelAnswers page4K dynKernel s.1 op
      (kernelAnswer (machine dynElf 16) dynKernel page4K s.1 op) := kernelAnswer_ok (by decide) op
  cases op with
  | openRdonly path =>
    have hpos : 0 ≤ descriptorOf path := by
      unfold descriptorOf
      split <;> decide
    refine ⟨trivial, ?_⟩
    simp only [dynAnswer]
    split
    · exact Or.inr ⟨by decide, by decide⟩
    · rename_i hfresh
      exact Or.inl ⟨hpos, hfresh, List.not_mem_nil⟩
  | fstat fd => exact ⟨trivial, fun h => absurd h (by decide)⟩
  | _ => exact ⟨hrest, trivial⟩

def dynRun : List (Event Kernel) × (Space × List Int32) × Outcome Error LoadedProgram :=
  ((loadProgramOwned ⟨.x86_64, page4K, true⟩ [47]).via (sysOwned mmapConfig .app ⟨0, 0⟩)).run
    (I := Kernel)
    (fun s op =>
      let r := dynAnswer s op
      (r, (kernelAfter page4K dynKernel s.1 op r, openAfter s.2 op r)))
    (emptySpace, [])

/-- What was loaded is a program with its interpreter. -/
def isLinked : Outcome Error LoadedProgram → Bool
  | .ok p => p.interp.isSome
  | _ => false

theorem dynRun_linked : isLinked dynRun.2.2 = true := by
  decide +kernel

/-- Both files were opened, and closed when they went out of scope. -/
theorem dynRun_closes :
    isLinked dynRun.2.2 = true ∧ dynRun.1.any (fun e => e.1 == .close 3) ∧
      dynRun.1.any (fun e => e.1 == .close 4) ∧ dynRun.2.1.2 = [] := by
  refine ⟨dynRun_linked, by decide +kernel, by decide +kernel, ?_⟩
  apply (load_program_closes_files mmapConfig .app ⟨0, 0⟩ dynKernel [] [47]
    (s := emptySpace) List.nodup_nil).2.2 dynRun.1 dynRun.2.1 dynRun.2.2
  · exact run_reaches (H := kernelFiles page4K dynKernel [])
      (fun s op => ⟨⟨(dynAnswer_ok s op).1, rfl⟩, (dynAnswer_ok s op).2, rfl⟩) _ _
  · intro hpanic
    have hlinked := dynRun_linked
    rw [hpanic] at hlinked
    cases hlinked

end ElfLoader.Shim
