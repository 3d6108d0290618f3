import ElfLoader.LoadCalls
import ElfLoader.Shim

/-!
# The files of `load_program`

`Opened` owns its file, and the file is closed when it goes out of scope, on every path but
a panic, which halts the machine.  `loadProgramOwned` is `load_program` with these drops
written out; without them it is `loadProgram`.  Whatever the files hold, an image is used
while it is open, and what was opened is dropped.
-/

namespace ElfLoader.Shim

open ElfLoader Outcome Elf Layout Loader Program
open ElfLoader.App hiding loadProgram
open ElfLoader.Prog hiding run

/-- The calls of the loader, and the end of an open image. -/
inductive OwnedOp where
  | host (op : HostOp)
  | drop (opened : Opened)
deriving DecidableEq, Repr

@[reducible] def OwnedOp.Res : OwnedOp → Type
  | .host op => op.Res
  | .drop _ => Unit

abbrev OwnedHost : Iface := ⟨OwnedOp, OwnedOp.Res⟩

variable {ε α : Type}

def hosted : Impl Host OwnedHost := fun op => .ask (I := OwnedHost) (.host op) Outcome.ok

/-- The scope of an open image. -/
def withOpened (opened : Opened) (body : Prog OwnedHost ε α) : Prog OwnedHost ε α := do
  let r ← body.attempt
  .ask (I := OwnedHost) (.drop opened) Outcome.ok
  raise r

def loadInterpOwned (b : Build) (path : Bytes) : Prog OwnedHost Error (Image × Loaded) := do
  let opened ← (openPath path).via hosted
  withOpened opened do
    let image ← ((Image.parse b.arch opened.src b.pageSize).mapErr Reject.toError).via hosted
    guardErr (¬ image.ehdr.eType ≠ ET_DYN) Error.ENOEXEC
    guardErr (¬ image.needsInterp = true) Error.ENOEXEC
    let loaded ← (load b image opened.src opened.fd).via hosted
    pure (image, loaded)

def loadInterpForOwned (b : Build) (main : Loaded) :
    Option Bytes → Prog OwnedHost Error (Option (Image × Loaded))
  | none => pure none
  | some ip => do
      match ← (loadInterpOwned b ip).attempt with
      | .ok v => pure (some v)
      | .error e => do
          (main.unload : Prog Host Error Unit).via hosted
          .done (.err e)

def loadProgramOwned (b : Build) (path : Bytes) : Prog OwnedHost Error LoadedProgram := do
  let opened ← (openPath path).via hosted
  withOpened opened do
    let image ← ((Image.parse b.arch opened.src b.pageSize).mapErr Reject.toError).via hosted
    checkStackRequest image
    let interpPath ← (interpPathOf image opened.src).via hosted
    let main ← (load b image opened.src opened.fd).via hosted
    let _ ← (U64.sub main.plan.fin main.plan.base : Outcome Error Nat)
    let _ ← (entryIsExecutable image main.plan : Outcome Error Bool)
    let interp ← loadInterpForOwned b main interpPath
    pure { image, main, interp, interpPath }

/-- `Drop for File`, next to the calls of `sys`. -/
def sysOwned (cfg : Config) (opener : VfsOpener) (stack : AppStack) : Impl OwnedHost Kernel
  | .host op => sys cfg opener stack op
  | .drop opened => elfrsClose cfg (.ofNat opened.src.handle)

/-! ### Without the drops -/

def forgetDrops : Impl OwnedHost Host
  | .host op => .ask (I := Host) op Outcome.ok
  | .drop _ => pure ()

theorem via_hosted_forget (p : Prog Host ε α) : (p.via hosted).via forgetDrops = p := by
  induction p with
  | done r => rfl
  | call op k ih => exact congrArg (Prog.call (I := Host) op) (funext ih)

theorem via_withOpened_forget (opened : Opened) (body : Prog OwnedHost ε α) :
    (withOpened opened body).via forgetDrops = body.via forgetDrops := by
  unfold withOpened
  rw [via_bind, via_attempt]
  have hraise (r : Except ε α) :
      ((.ask (I := OwnedHost) (.drop opened) Outcome.ok >>= fun _ => raise r :
        Prog OwnedHost ε α)).via forgetDrops = raise r := by
    cases r with
    | ok a => rfl
    | error e => rfl
  simp only [hraise]
  exact attempt_raise _

/-- `load_program` with its drops is the `load_program` the loader was verified with. -/
theorem loadInterpOwned_forget (b : Build) (path : Bytes) :
    (loadInterpOwned b path).via forgetDrops = loadInterp b path := by
  unfold loadInterpOwned loadInterp
  rw [via_bind, via_hosted_forget]
  apply bind_congr
  intro opened
  rw [via_withOpened_forget, via_bind, via_hosted_forget]
  apply bind_congr
  intro image
  rw [via_bind, via_lift]
  apply bind_congr
  intro _
  rw [via_bind, via_lift]
  apply bind_congr
  intro _
  rw [via_bind, via_hosted_forget]
  rfl

theorem loadInterpForOwned_forget (b : Build) (main : Loaded) (ip : Option Bytes) :
    (loadInterpForOwned b main ip).via forgetDrops = loadInterpFor b main ip := by
  cases ip with
  | none => rfl
  | some ip =>
    unfold loadInterpForOwned loadInterpFor
    rw [via_bind, via_attempt, loadInterpOwned_forget]
    apply bind_congr
    intro r
    cases r with
    | ok v => rfl
    | error e =>
      change (((main.unload : Prog Host Error Unit).via hosted) >>= fun _ => _).via forgetDrops = _
      rw [via_bind, via_hosted_forget]
      rfl

theorem loadProgramOwned_forget (b : Build) (path : Bytes) :
    (loadProgramOwned b path).via forgetDrops = loadProgram b path := by
  unfold loadProgramOwned loadProgram
  rw [via_bind, via_hosted_forget]
  apply bind_congr
  intro opened
  rw [via_withOpened_forget, via_bind, via_hosted_forget]
  apply bind_congr
  intro image
  rw [via_bind, via_lift]
  apply bind_congr
  intro _
  rw [via_bind, via_hosted_forget]
  apply bind_congr
  intro ip
  rw [via_bind, via_hosted_forget]
  apply bind_congr
  intro main
  rw [via_bind, via_lift]
  apply bind_congr
  intro _
  rw [via_bind, via_lift]
  apply bind_congr
  intro _
  rw [via_bind, loadInterpForOwned_forget]
  rfl

/-! ### Images are used while they are open -/

/-- What the calls do to the images that are open. -/
def ownedStep (pg : PageSize) : Handler OwnedHost (List Opened)
  | own, .host (.openPath _), (.ok opened : Except Error Opened), own' =>
      (∀ o ∈ own, o.src.handle ≠ opened.src.handle) ∧ own' = opened :: own
  | own, .host op, r, own' => Grants pg op r ∧ own' = own
  | own, .drop opened, _, own' => own' = own.erase opened

/-- A call is for an image that is open. -/
def OwnedCall (pg : PageSize) (own : List Opened) : OwnedOp → Prop
  | .host (.openPath _) => True
  | .host op => ∃ o ∈ own, LoadCall pg o.src o.fd op
  | .drop opened => opened ∈ own

section Own

variable {pg : PageSize} {own : List Opened} {opened : Opened} {F : α → Prop}

/-- A program for an open image opens and closes none. -/
theorem wp_hosted {p : Prog Host ε α} (hopen : opened ∈ own)
    (hp : Calls (Grants pg) (LoadCall pg opened.src opened.fd) p F) :
    wp (ownedStep pg) (OwnedCall pg) (p.via hosted)
      (post (fun own' a => own' = own ∧ F a) (fun own' _ => own' = own) True) own := by
  have himpl : Implements (fun (_ : Unit) op r _ => Grants pg op r)
      (fun _ => LoadCall pg opened.src opened.fd) hosted (fun _ own' => own' = own)
      (ownedStep pg) (OwnedCall pg) := by
    constructor
    rintro _ own' op rfl hcall
    cases op with
    | openPath path => exact hcall.elim
    | vm op =>
      constructor
      · exact ⟨opened, hopen, hcall⟩
      rintro r own' ⟨hgrants, rfl⟩
      exact ⟨(), hgrants, rfl⟩
    | readExactAt src off n =>
      constructor
      · exact ⟨opened, hopen, hcall⟩
      rintro r own' ⟨hgrants, rfl⟩
      exact ⟨(), hgrants, rfl⟩
    | tryReserve n =>
      constructor
      · exact ⟨opened, hopen, hcall⟩
      rintro r own' ⟨hgrants, rfl⟩
      exact ⟨(), hgrants, rfl⟩
    | stackWrite addr data => exact hcall.elim
  apply wp_mono (himpl.wp rfl hp)
  rintro own' r ⟨_, rfl, hr⟩
  cases r with
  | ok a => exact ⟨rfl, hr⟩
  | err e => rfl
  | panic => trivial

theorem wp_hosted_read {p : Prog Host ε α} (hopen : opened ∈ own)
    (hp : Calls (Grants pg) (ReadCall opened.src) p F) :
    wp (ownedStep pg) (OwnedCall pg) (p.via hosted)
      (post (fun own' a => own' = own ∧ F a) (fun own' _ => own' = own) True) own :=
  wp_hosted hopen (hp.weaken fun _ => ReadCall.loadCall opened.fd)

/-- An image that was opened for a scope is gone when the scope ends. -/
theorem wp_withOpened {body : Prog OwnedHost ε α}
    (hbody : wp (ownedStep pg) (OwnedCall pg) body
      (post (fun own' _ => own' = opened :: own) (fun own' _ => own' = opened :: own) True)
      (opened :: own)) :
    wp (ownedStep pg) (OwnedCall pg) (withOpened opened body)
      (post (fun own' _ => own' = own) (fun own' _ => own' = own) True) (opened :: own) := by
  apply wp_bind.mpr
  apply wp_attempt.mpr
  apply wp_mono hbody
  intro own' r hr
  cases r with
  | ok a =>
    rcases hr with rfl
    constructor
    · exact List.mem_cons_self
    rintro _ own' rfl
    exact List.erase_cons_head ..
  | err e =>
    rcases hr with rfl
    constructor
    · exact List.mem_cons_self
    rintro _ own' rfl
    exact List.erase_cons_head ..
  | panic => trivial

theorem wp_openOwned (path : Bytes) :
    wp (ownedStep pg) (OwnedCall pg) ((openPath path).via hosted)
      (post (fun own' opened => own' = opened :: own) (fun own' _ => own' = own) True) own := by
  constructor
  · trivial
  intro r own' hr
  cases r with
  | ok opened => exact hr.2
  | error e => exact hr.2

end Own

/-- The program leaves the images that are open as they were. -/
abbrev LeavesOpen (pg : PageSize) (p : Prog OwnedHost ε α) (own : List Opened) : Prop :=
  wp (ownedStep pg) (OwnedCall pg) p
    (post (fun own' _ => own' = own) (fun own' _ => own' = own) True) own

section LoadProgram

variable (b : Build) {own : List Opened}

theorem leavesOpen_loadInterp (path : Bytes) : LeavesOpen b.page (loadInterpOwned b path) own := by
  apply wp_bind_err (wp_openOwned path) fun _ _ h => h
  rintro _ opened rfl
  apply wp_withOpened
  have hmem : opened ∈ opened :: own := List.mem_cons_self
  apply wp_bind_post (wp_hosted_read hmem (calls_parseImage b.arch))
  rintro _ image ⟨rfl, himage⟩
  apply wp_lift_bind ?_ (fun _ _ => rfl) fun _ => trivial
  intro _ _
  apply wp_lift_bind ?_ (fun _ _ => rfl) fun _ => trivial
  intro _ _
  apply wp_bind_post (wp_hosted hmem (calls_load b himage.valid opened.src opened.fd))
  rintro _ loaded ⟨rfl, -⟩
  rfl

theorem leavesOpen_loadInterpFor {opened : Opened} (hmem : opened ∈ own) {main : Loaded}
    (hmain : Returnable b.page main) (ip : Option Bytes) :
    LeavesOpen b.page (loadInterpForOwned b main ip) own := by
  cases ip with
  | none => rfl
  | some ip =>
    apply wp_bind.mpr
    apply wp_attempt.mpr
    apply wp_mono (leavesOpen_loadInterp b ip)
    intro own' r hr
    cases r with
    | ok v => exact hr
    | panic => trivial
    | err e =>
      rcases hr with rfl
      apply wp_bind_post (wp_hosted hmem (calls_unload hmain))
      rintro _ _ ⟨rfl, -⟩
      rfl

/-- **`load_program` gives back every image it opens.** -/
theorem leavesOpen_loadProgram (path : Bytes) :
    LeavesOpen b.page (loadProgramOwned b path) own := by
  apply wp_bind_err (wp_openOwned path) fun _ _ h => h
  rintro _ opened rfl
  apply wp_withOpened
  have hmem : opened ∈ opened :: own := List.mem_cons_self
  apply wp_bind_post (wp_hosted_read hmem (calls_parseImage b.arch))
  rintro _ image ⟨rfl, himage⟩
  apply wp_lift_bind ?_ (fun _ _ => rfl) fun _ => trivial
  intro _ _
  apply wp_bind_post (wp_hosted_read hmem (calls_interpPathOf himage))
  rintro _ ip ⟨rfl, -⟩
  apply wp_bind_post (wp_hosted hmem (calls_load b himage.valid opened.src opened.fd))
  rintro _ main ⟨rfl, hmain⟩
  apply wp_lift_bind ?_ (fun _ _ => rfl) fun _ => trivial
  intro _ _
  apply wp_lift_bind ?_ (fun _ _ => rfl) fun _ => trivial
  intro _ _
  apply wp_bind_post (leavesOpen_loadInterpFor b hmem hmain ip)
  rintro _ interp rfl
  rfl

end LoadProgram

end ElfLoader.Shim
