import ElfLoader.LoadCalls

/-!
# How long a reservation is kept

A load gives a range back for one of three reasons: a link address that was not
free, a reservation that could not be filled, and a program whose interpreter
could not be loaded.  After each of them it can only fail.  So a run that ends
with an image has given nothing back, and what it was granted it still has.
-/

namespace ElfLoader.Reservation

open ElfLoader Outcome Prog Elf Layout Loader Program

/-- The call that gives a range back. -/
def Held.giveBack (r : Held) : HostOp :=
  .vm (if r.allocated then .freeAligned r.addr r.len else .unmap r.addr r.len)

def GivesBack : HostOp → Prop
  | .vm (.unmap ..) => True
  | .vm (.freeAligned ..) => True
  | _ => False

/-- The range a call grants. -/
def grantOf : Event Host → Option Held
  | ⟨.vm (.map .anywhere len _ _), (.ok raw : Except Error Nat)⟩ => some ⟨raw, len, false⟩
  | ⟨.vm (.map (.hint _) len _ _), (.ok raw : Except Error Nat)⟩ => some ⟨raw, len, false⟩
  | ⟨.vm (.allocAligned _ len), (.ok raw : Except Error Nat)⟩ => some ⟨raw, len, true⟩
  | _ => none

/-! ### What is held after a run -/

section Held

variable {g : List Held} {e : Event Host} {r : Held}

theorem hold_of_grantOf (h : grantOf e = some r) : hold g e.1 e.2 = r :: g := by
  rcases e with ⟨op, res⟩
  cases op with
  | vm op =>
    cases op with
    | map place len prot src =>
      cases place with
      | anywhere => cases res <;> cases h; rfl
      | hint a => cases res <;> cases h; rfl
      | exact a => cases h
    | allocAligned align len => cases res <;> cases h; rfl
    | _ => cases h
  | _ => cases h

theorem hold_of_not_givesBack (h : ¬ GivesBack e.1) : hold g e.1 e.2 = (grantOf e).toList ++ g := by
  rcases e with ⟨op, res⟩
  cases op with
  | vm op =>
    cases op with
    | map place len prot src =>
      cases place with
      | anywhere => cases res <;> rfl
      | hint a => cases res <;> rfl
      | exact a => cases res <;> rfl
    | allocAligned align len => cases res <;> rfl
    | unmap a len => exact absurd trivial h
    | freeAligned a len => exact absurd trivial h
    | _ => rfl
  | _ => rfl

theorem mem_hold (hr : r ∈ g) (h : e.1 ≠ r.giveBack) : r ∈ hold g e.1 e.2 := by
  have herase (r' : Held) (hr' : e.1 = r'.giveBack) : r ∈ g.erase r' := by
    apply (List.mem_erase_of_ne ?_).mpr hr
    rintro rfl
    exact h hr'
  by_cases hback : GivesBack e.1
  · rcases e with ⟨op, res⟩
    cases op with
    | vm op =>
      cases op with
      | unmap a len =>
        cases res with
        | ok u => exact herase ⟨a, len, false⟩ rfl
        | error e => exact hr
      | freeAligned a len => exact herase ⟨a, len, true⟩ rfl
      | _ => exact hback.elim
    | _ => exact hback.elim
  · rw [hold_of_not_givesBack hback]
    exact List.mem_append_right _ hr

/-- What is held stays held until it is given back. -/
theorem mem_foldl_hold {tr : List (Event Host)} (hr : r ∈ g) (h : ∀ e ∈ tr, e.1 ≠ r.giveBack) :
    r ∈ tr.foldl (fun g e => hold g e.1 e.2) g := by
  induction tr generalizing g with
  | nil => exact hr
  | cons e rest ih =>
    rw [List.forall_mem_cons] at h
    exact ih (mem_hold hr h.1) h.2

/-- Where nothing is given back, what is held is what was granted, the last first. -/
theorem foldl_hold_of_kept {tr : List (Event Host)} (h : ∀ e ∈ tr, ¬ GivesBack e.1) :
    tr.foldl (fun g e => hold g e.1 e.2) g = (tr.filterMap grantOf).reverse ++ g := by
  induction tr generalizing g with
  | nil => rfl
  | cons e rest ih =>
    rw [List.forall_mem_cons] at h
    rw [List.foldl_cons, ih h.2, hold_of_not_givesBack h.1, List.filterMap_cons]
    cases grantOf e with
    | none => rfl
    | some r => simp

end Held

/-! ### Nothing is given back on the way to an image -/

/-- A program that has no value once it has given a range back. -/
abbrev Keeps (pg : PageSize) {ε α : Type} (p : Prog Host ε α) (F : α → Prop) : Prop :=
  Unspent (Granted pg (2 ^ 64)) GivesBack p F

section Keeps

variable {ε α : Type} {pg : PageSize} {F : α → Prop}

theorem keeps_lift {r : Outcome ε α} (hF : ∀ a, r = ok a → F a) :
    Keeps pg (liftM r : Prog Host ε α) F :=
  Calls.unspent (calls_lift hF)

theorem keeps_ask {op : HostOp} {meaning : op.Res → Outcome ε α} (hop : ¬ GivesBack op)
    (hF : ∀ r a, Granted pg (2 ^ 64) op r → meaning r = ok a → F a) :
    Keeps pg (ask (I := Host) op meaning) F :=
  Calls.unspent (calls_ask (I := Host) hop hF)

theorem not_givesBack_of_fillCall {op : HostOp} (h : AddressSpace.FillCall op) :
    ¬ GivesBack op := by
  cases op with
  | vm op =>
    cases op with
    | unmap a len => exact h.elim
    | freeAligned a len => exact h.elim
    | _ => exact id
  | _ => exact id

theorem keeps_reads (src : Source) {p : Prog Host ε α}
    (hp : Calls (Granted pg (2 ^ 64)) (ReadCall src) p F) : Keeps pg p F :=
  (hp.weaken fun _ h => not_givesBack_of_fillCall h.fillCall).unspent

theorem no_value_unload (l : Loaded) (e : Error) :
    Calls (Granted pg (2 ^ 64)) (fun _ => True)
      (do l.unload; .done (.err e) : Prog Host Error α) fun _ => False := by
  apply Calls.bind (F := fun _ => True)
  · unfold Loaded.unload
    split
    · exact calls_vm trivial
    · exact Calls.bind (calls_vm trivial) fun _ _ => trivial
  · intro _ _
    trivial

theorem keeps_fillOrUnload (src : Source) (fd : Option Int) {P : Prop} {l : Loaded}
    {fill : Prog Host Error Unit}
    (hfill : Calls (Granted pg (2 ^ 64)) (FillsImage pg src fd P) fill fun _ => True) :
    Keeps pg (fillOrUnload l fill) fun _ => True := by
  have hkeeps : Keeps pg fill fun _ => True :=
    (hfill.weaken fun _ h => not_givesBack_of_fillCall h.1).unspent
  apply hkeeps.attempt
  · intro _ _
    exact ⟨rfl, trivial⟩
  · intro e
    exact no_value_unload l e

end Keeps

section Load

variable {pg : PageSize} {image : Image}

theorem keeps_reserveMapped (hv : image.Valid pg) (hspan : SpanFits pg image) :
    Keeps pg (reserveMapped image pg.bytes (image.lo pg) (needOf pg image))
      (Placement.PageAligned pg) := by
  rw [reserveMapped_eq hv hspan]
  split
  · apply Unspent.bind (F := fun raw => pg.bytes ∣ raw)
    · apply keeps_ask id
      intro r raw hr hraw
      cases r with
      | error e => cases hraw
      | ok raw' =>
        cases hraw
        exact hr.1
    · intro raw hraw
      exact ⟨rfl, hraw⟩
  · apply Unspent.bind (F := fun _ => True)
    · exact keeps_ask id fun _ _ _ _ => trivial
    · intro got _
      split
      · have hno : Calls (Granted pg (2 ^ 64)) (fun _ => True) (do
            let _ ← Vm.unmap got (image.hi pg - image.lo pg)
            .done (.err Error.ENOMEM) : Prog Host Error Placement) fun _ => False :=
          Calls.bind (calls_vm trivial) fun _ _ => trivial
        exact hno.no_value (fun _ _ => trivial) _ _
      · exact ⟨rfl, trivial⟩

theorem keeps_load (b : Build) (hv : image.Valid b.page) (src : Source) (fd : Option Int) :
    Keeps b.page (load b image src fd) fun _ => True := by
  have hmapped (fd : Int) : Keeps b.page (loadMapped image fd b.page.bytes) fun _ => True := by
    rw [loadMapped_eq hv]
    split
    · rename_i hspan
      apply (keeps_reserveMapped hv hspan).bind
      intro pl hpl
      apply (keeps_reads src (calls_makePlan hv hspan hpl)).bind
      rintro p ⟨-, hp⟩
      exact keeps_fillOrUnload src (some fd) (calls_fillMapped hv hp fd)
    · trivial
  have hcopied : Keeps b.page (loadCopied image src b.page.bytes) fun _ => True := by
    rw [loadCopied_eq hv]
    split
    · trivial
    · split
      · rename_i hspan
        apply Unspent.bind (F := fun raw => b.page.bytes ∣ raw)
        · apply keeps_ask id
          intro r raw hr hraw
          cases r with
          | error e => cases hraw
          | ok raw' =>
            cases hraw
            exact hr.1
        · intro raw hraw
          have hpage : (Placement.at raw).PageAligned b.page := hraw
          apply (keeps_reads src (calls_makePlan hv hspan hpage)).bind
          rintro p ⟨-, hp⟩
          exact keeps_fillOrUnload src fd (calls_fillCopied hv hp src)
      · trivial
  unfold load
  split
  · exact hmapped _
  · exact hcopied

end Load

section Program

variable (b : Build)

theorem keeps_openPath (path : Bytes) : Keeps b.page (openPath path) fun _ => True :=
  keeps_ask id fun _ _ _ _ => trivial

theorem keeps_loadInterp (path : Bytes) : Keeps b.page (loadInterp b path) fun _ => True := by
  apply (keeps_openPath b path).bind
  intro o _
  apply (keeps_reads o.src (calls_parseImage b.arch)).bind
  intro image himage
  apply Unspent.bind (keeps_lift (F := fun _ => True) fun _ _ => trivial)
  intro _ _
  apply Unspent.bind (keeps_lift (F := fun _ => True) fun _ _ => trivial)
  intro _ _
  apply (keeps_load b himage.valid o.src o.fd).bind
  intro _ _
  exact ⟨rfl, trivial⟩

theorem keeps_loadInterpFor (main : Loaded) (ip : Option Bytes) :
    Keeps b.page (loadInterpFor b main ip) fun _ => True := by
  cases ip with
  | none => exact ⟨rfl, trivial⟩
  | some ip =>
    apply (keeps_loadInterp b ip).attempt
    · intro v _
      exact ⟨rfl, trivial⟩
    · intro e
      exact no_value_unload main e

/-- **A program that is loaded has given nothing back.** -/
theorem keeps_loadProgram (path : Bytes) : Keeps b.page (loadProgram b path) fun _ => True := by
  apply (keeps_openPath b path).bind
  intro o _
  apply (keeps_reads o.src (calls_parseImage b.arch)).bind
  intro image himage
  apply Unspent.bind (keeps_lift (F := fun _ => True) fun _ _ => trivial)
  intro _ _
  apply (keeps_reads o.src (calls_interpPathOf himage)).bind
  intro ip _
  apply (keeps_load b himage.valid o.src o.fd).bind
  intro main _
  apply Unspent.bind (keeps_lift (F := fun _ => True) fun _ _ => trivial)
  intro _ _
  apply Unspent.bind (keeps_lift (F := fun _ => True) fun _ _ => trivial)
  intro _ _
  apply (keeps_loadInterpFor b main ip).bind
  intro _ _
  exact ⟨rfl, trivial⟩

end Program

end ElfLoader.Reservation
