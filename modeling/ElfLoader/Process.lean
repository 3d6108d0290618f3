import ElfLoader.Containment
import ElfLoader.LoadCalls
import ElfLoader.ProgramImage
import ElfLoader.StackImage

/-!
# The image of a process

A program is entered with two registers set, and is told nothing else.  All it needs has to
be in memory: the segments of the program and of its interpreter, and on its stack the
arguments, the environment and an auxiliary vector that says where these segments are.
Loading leaves the stack alone and building the stack leaves the images alone, so both can
be read off the memory at the end.
-/

namespace ElfLoader.AddressSpace

open ElfLoader Outcome Prog Elf Layout Loader Program
open ElfLoader.Auxv hiding alignDown

/-- The address space after a call, when the stack is a part of it. -/
def processAfter (pg : PageSize) (w : World) (s : Space) : (op : HostOp) → op.Res → Space
  | .stackWrite a data, (.ok _ : Except Error Unit) => s.written a data
  | op, r => s.after pg w op r

/-- What the calls do to the memory of a process.  No range is granted at address 0. -/
def processStep (pg : PageSize) (w : World) : Handler Host Space := fun s op r s' =>
  s.Answers pg w op r ∧ Nonzero op r ∧ s' = processAfter pg w s op r

def stackBytes (r : StackRange) : Nat → Prop := Within r.bottom r.top

/-- What is on the stack at `sp`: a reader finds the arguments, the environment and the vector,
    which says where the program and its interpreter are. -/
def StackReads (r : StackRange) (argv envp : List Bytes) (aux : AuxvSpec) (p : LoadedProgram)
    (sp : Nat) (m : Memory) : Prop :=
  ∃ q random execfn platform,
    (∀ fuel, r.top - sp ≤ fuel → readStack m fuel sp = some q) ∧
    ReadsBack r argv envp aux sp m q random execfn platform ∧
    q.get AT_ENTRY = some p.main.plan.entry ∧ q.get AT_BASE = some p.interpBase

/-- The program at `path` was loaded and given a stack, and nothing else has changed. -/
structure ProcessImage (b : Build) (w : World) (path : Bytes) (r : StackRange)
    (argv envp : List Bytes) (env : Environment) (p : LoadedProgram) (sp : Nat) (s s' : Space) :
    Prop where
  program : ProgramIn b w path p s'
  aligned : SP_ALIGN ∣ sp
  inside : r.bottom ≤ sp ∧ sp ≤ r.top
  stack : ∃ aux, p.auxv b.arch env = (ok aux : Outcome Error AuxvSpec) ∧
    StackReads r argv envp aux p sp s'.mem
  rest : AgreeOn b.page (fun x => ¬ stackBytes r x ∧ ¬ programRange p x) s s'

section Process

variable {b : Build} {w : World} {s : Space} {ε α : Type}

/-! ### Loading leaves the stack alone -/

theorem processStep_offStack {pg : PageSize} {op : HostOp} {r : op.Res} {s' : Space}
    (hop : OffStack op) (h : processStep pg w s op r s') :
    step pg w s op r s' ∧ Nonzero op r := by
  rcases h with ⟨hans, hnonzero, hs'⟩
  refine ⟨⟨hans, hs'.trans ?_⟩, hnonzero⟩
  cases op with
  | stackWrite a data => exact hop.elim
  | _ => rfl

/-- The program at `path` is loaded, and spares what is in use. -/
structure LoadedOnto (b : Build) (w : World) (path : Bytes) (s : Space) (p : LoadedProgram)
    (s' : Space) : Prop where
  program : ProgramIn b w path p s'
  rest : AgreeOn b.page (fun x => ¬ programRange p x) s s'
  spares : ∀ R, InUse b.page s R (Copies b w) → ∀ x, R x → ¬ programRange p x

theorem wp_loadedOnto (hw : Served b w) (hapart : BlocksApart s) (path : Bytes) :
    wp (processStep b.page w) (fun _ _ => True) (loadProgram b path)
      (post (fun s' p => LoadedOnto b w path s p s') (fun _ _ => True) True) s := by
  have hruns : wp (fun s op r s' => step b.page w s op r s' ∧ Nonzero op r) (fun _ _ => True)
      (loadProgram b path)
      (post (fun s' p => LoadedOnto b w path s p s') (fun _ _ => True) True) s := by
    apply wp_of_reaches
    · exact fun _ _ _ _ _ => trivial
    intro tr s' r hrun
    have hseen := hrun.seen id fun _ _ _ _ h => h.1
    have hend := wp_reaches (wp_programLoaded hw hapart path) (hseen.recorded note Notes.empty)
    cases r with
    | ok p => exact ⟨hend.1, hend.2.1, hend.2.2⟩
    | err e => trivial
    | panic => trivial
  have hcalls := (calls_loadProgram path).wp
    (fun _ _ _ _ h => ⟨granted_of_answers h.1.1, h.2⟩) hruns
  apply wp_mono (wp_pre_mono (wp_exchange hcalls ?_) fun _ _ _ => trivial) fun _ _ h => h.1
  exact fun _ _ _ _ hop h => processStep_offStack hop.2 h

/-! ### Building the stack leaves the images alone -/

/-- Only bytes of `R` have changed. -/
structure OnlyWritten (R : Nat → Prop) (s s' : Space) : Prop where
  prot : s'.prot = s.prot
  mem : ∀ x, ¬ R x → s'.mem x = s.mem x

/-- What is known of a stack by itself holds where it is a part of the memory. -/
theorem wp_onStack {r : StackRange} {p : Prog Host ε α} {Q : Memory → Outcome ε α → Prop}
    (hp : StackOnly p) (hwp : wp stackStep (InStack r) p Q s.mem) :
    wp (processStep b.page w) (fun _ _ => True) p
      (fun s' v => Q s'.mem v ∧ OnlyWritten (stackBytes r) s s') s := by
  induction p generalizing s with
  | done v => exact ⟨hwp, rfl, fun _ _ => rfl⟩
  | call op k ih =>
    refine ⟨trivial, ?_⟩
    rintro res s₁ ⟨-, -, rfl⟩
    have hcall : StackCall op := hp.1
    cases op with
    | tryReserve n => exact ih res (hp.2 res () trivial) (hwp.2 res _ rfl)
    | stackWrite a data =>
      cases res with
      | error e => exact ih _ (hp.2 _ () trivial) (hwp.2 _ _ rfl)
      | ok u =>
        have hpoke : stackStep s.mem (.stackWrite a data) (Except.ok u : Except Error Unit)
            (s.written a data).mem := rfl
        apply wp_mono (ih _ (hp.2 _ () trivial) (hwp.2 _ _ hpoke))
        rintro s' v ⟨hQ, hsame⟩
        refine ⟨hQ, hsame.prot, ?_⟩
        intro x hx
        have hin : r.bottom ≤ a ∧ a + data.length ≤ r.top := hwp.1
        have hout : ¬ (a ≤ x ∧ x < a + data.length) :=
          fun h => hx ⟨hin.1.trans h.1, lt_of_lt_of_le h.2 hin.2⟩
        rw [hsame.mem x hx]
        exact if_neg hout
    | vm op => exact hcall.elim
    | openPath path => exact hcall.elim
    | readExactAt src off n => exact hcall.elim

/-! ### Both together -/

/-- The vector says where the images are. -/
theorem ProgramIn.auxv_places {path : Bytes} {p : LoadedProgram} {s' : Space} {env : Environment}
    {aux : AuxvSpec} (hprog : ProgramIn b w path p s')
    (haux : p.auxv b.arch env = (ok aux : Outcome ε AuxvSpec)) :
    aux.entry.toNat = p.main.plan.entry ∧ aux.base.toNat = p.interpBase := by
  unfold LoadedProgram.auxv at haux
  rw [bind_eq_ok] at haux
  rcases haux with ⟨phdr, -, haux⟩
  cases haux
  constructor
  · rcases hprog.main with ⟨o, -, hmain, -⟩
    exact UInt64.toNat_ofNat_of_lt' hmain.entry_lt
  · apply UInt64.toNat_ofNat_of_lt'
    unfold LoadedProgram.interpBase
    have hinterp := hprog.interp
    cases hip : p.interp with
    | none => decide
    | some v =>
      rw [hip] at hinterp
      cases hpath : p.interpPath with
      | none =>
        rw [hpath] at hinterp
        exact hinterp.elim
      | some ip =>
        rw [hpath] at hinterp
        rcases hinterp with ⟨o, -, -, -, hin⟩
        exact lt_of_le_of_lt (Nat.le_add_left _ _) hin.placed.fin_lt

/-- The search for the program headers has no error of its own. -/
theorem phdrSearch_ok {ε' : Type} {plan : Layout.LoadPlan} {image : Image} {loads : List Nat}
    {v : Option Nat} (h : plan.phdrSearch image loads = (ok v : Outcome ε (Option Nat))) :
    plan.phdrSearch image loads = (ok v : Outcome ε' (Option Nat)) := by
  induction loads with
  | nil =>
    cases h
    rfl
  | cons i rest ih =>
    unfold LoadPlan.phdrSearch at h ⊢
    rw [bind_eq_ok] at h ⊢
    rcases h with ⟨l, hl, h⟩
    refine ⟨l, index_eq_ok.mpr (index_eq_ok.mp hl), ?_⟩
    dsimp only at h ⊢
    split at h
    · rename_i hge
      rw [if_pos hge]
      split at h
      · cases h
        rfl
      · split at h
        · rename_i hlt
          rw [if_pos hlt]
          rw [bind_eq_ok] at h ⊢
          rcases h with ⟨delta, hdelta, h⟩
          cases h
          exact ⟨delta, U64.sub_eq_ok.mpr (U64.sub_eq_ok.mp hdelta), rfl⟩
        · rename_i hlt
          rw [if_neg hlt]
          exact ih h
    · rename_i hge
      rw [if_neg hge]
      exact ih h

/-- Nor has the auxiliary vector. -/
theorem auxv_ok {ε' : Type} {p : LoadedProgram} {arch : Arch} {env : Environment} {aux : AuxvSpec}
    (h : p.auxv arch env = (ok aux : Outcome ε AuxvSpec)) :
    p.auxv arch env = (ok aux : Outcome ε' AuxvSpec) := by
  unfold LoadedProgram.auxv at h ⊢
  rw [bind_eq_ok] at h ⊢
  rcases h with ⟨phdr, hphdr, h⟩
  cases h
  refine ⟨phdr, ?_, rfl⟩
  unfold LoadPlan.phdrAddr at hphdr ⊢
  split at hphdr
  · split at hphdr
    · cases hphdr
      rfl
    · split at hphdr
      · rename_i hcovers
        rw [if_pos hcovers]
        cases hphdr
        rfl
      · rename_i hcovers
        rw [if_neg hcovers]
        exact phdrSearch_ok hphdr
  · exact phdrSearch_ok hphdr

/-- A stack that was built for a program that is in memory completes its image. -/
theorem LoadedOnto.processImage {path : Bytes} {r : StackRange} {argv envp : List Bytes}
    {env : Environment} {aux : AuxvSpec} {p : LoadedProgram} {l : StackLayout} {q : Places}
    {s₁ s₂ : Space} (h : LoadedOnto b w path s p s₁)
    (hstack : InUse b.page s (stackBytes r) (Copies b w)) (hargv : ∀ x ∈ argv, 0 ∉ x)
    (henvp : ∀ x ∈ envp, 0 ∉ x)
    (haux : p.auxv b.arch env = (ok aux : Outcome ε AuxvSpec))
    (hbuilt : Built r argv envp aux s₁.mem l q s₂.mem) (honly : OnlyWritten (stackBytes r) s₁ s₂) :
    ProcessImage b w path r argv envp env p l.sp s s₂ := by
  have hprog : ProgramIn b w path p s₂ := by
    apply h.program.frame
    constructor
    · intro x _
      rw [Space.protAt, honly.prot]
      rfl
    · exact fun x hx => honly.mem x fun hin => h.spares _ hstack x hin hx
  have hplaces := hprog.auxv_places haux
  have hreads := hbuilt.readsBack
  refine ⟨hprog, hbuilt.sp_eq ▸ dvd_roundDown _ _, ⟨hbuilt.bottom_le, ?_⟩,
    ⟨aux, auxv_ok haux, _, _, _, _, ?_, hreads, ?_, ?_⟩, ?_, ?_⟩
  · have hblock := hbuilt.block_le
    have horder := hbuilt.order
    omega
  · exact fun fuel hfuel => hbuilt.readStack_eq hargv henvp hfuel
  · rw [← hplaces.1]
    exact hreads.fields (AT_ENTRY, some aux.entry.toNat) (by simp [AuxvSpec.fields])
  · rw [← hplaces.2]
    exact hreads.fields (AT_BASE, some aux.base.toNat) (by simp [AuxvSpec.fields])
  · intro x hx
    rw [Space.protAt, honly.prot]
    exact h.rest.prot x hx.2
  · intro x hx
    rw [honly.mem x hx.1]
    exact h.rest.mem x hx.2

end Process

/-! ### A machine with a stack -/

/-- The answers of a machine that grants no range at address 0. -/
def processAnswer (m : Machine) (pg : PageSize) (s : Space) : (op : HostOp) → op.Res
  | .vm (.map place len prot src) =>
      if m.place pg s len place = some 0 then (.error Error.ENOMEM : Except Error Nat)
      else m.answer pg s (.vm (.map place len prot src))
  | op => m.answer pg s op

theorem processAnswer_ok (m : Machine) (pg : PageSize) (s : Space) (op : HostOp) :
    s.Answers pg m.world op (processAnswer m pg s op) ∧ Nonzero op (processAnswer m pg s op) := by
  have hans : s.Answers pg m.world op (m.answer pg s op) := m.answers op
  cases op with
  | vm op =>
    cases op with
    | map place len prot src =>
      simp only [processAnswer]
      split
      · cases place <;> exact ⟨trivial, trivial⟩
      · rename_i hne
        refine ⟨hans, ?_⟩
        simp only [Machine.answer]
        cases hplace : m.place pg s len place with
        | none => cases place <;> trivial
        | some raw =>
          rw [hplace] at hne
          cases place with
          | exact a => trivial
          | anywhere => exact fun h => hne (congrArg some h)
          | hint a => exact fun h => hne (congrArg some h)
    | _ => exact ⟨hans, trivial⟩
  | _ => exact ⟨hans, trivial⟩

def processExec (m : Machine) (pg : PageSize) (s : Space) (op : HostOp) : op.Res × Space :=
  (processAnswer m pg s op, processAfter pg m.world s op (processAnswer m pg s op))

theorem processExec_ok (m : Machine) (pg : PageSize) (s : Space) (op : HostOp) :
    processStep pg m.world s op (processExec m pg s op).1 (processExec m pg s op).2 :=
  ⟨(processAnswer_ok m pg s op).1, (processAnswer_ok m pg s op).2, rfl⟩

end ElfLoader.AddressSpace
