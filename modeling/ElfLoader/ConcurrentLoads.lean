import ElfLoader.Isolation

/-!
# Loads at the same time

On a build that maps files, any number of calls of `load_program` may run at once, called by
different threads in any order.  Each of them runs as if it were alone in an empty address
space, and what they make are parts of the shared one that have nothing in common.
-/

namespace ElfLoader.AddressSpace

open ElfLoader Outcome Prog Elf Layout Loader Program Reservation

/-- Files come with a descriptor to map them from. -/
def Mappable (w : World) : Prop := ∀ path o, w.lookup path = some o → o.fd ≠ none

def OpensMappable : (op : HostOp) → op.Res → Prop
  | .openPath _, (.ok o : Except Error Opened) => o.fd ≠ none
  | _, _ => True

/-- `p` maps its files, and does not use the heap. -/
abbrev Maps {ε α : Type} (p : Prog Host ε α) (F : α → Prop) : Prop := Calls OpensMappable MapsOnly p F

section Maps

variable {ε α : Type} {image : Image} {src : Source}

theorem maps_ask {op : HostOp} {meaning : op.Res → Outcome ε α} (h : MapsOnly op) :
    Maps (ask (I := Host) op meaning) fun _ => True :=
  calls_ask (I := Host) h fun _ _ _ _ => trivial

theorem maps_lift (r : Outcome ε α) : Maps (liftM r : Prog Host ε α) fun _ => True :=
  calls_lift fun _ _ => trivial

theorem maps_openPath (path : Bytes) : Maps (openPath path) fun o => o.fd ≠ none := by
  apply calls_ask (I := Host) trivial
  intro r o hr ho
  cases r with
  | ok o' =>
    cases ho
    exact hr
  | error e => cases ho

theorem reads_maps (src : Source) :
    Reads (fun (_ : Unit) op r _ => OpensMappable op r) (fun _ => MapsOnly) src (fun _ => True)
      (fun _ _ => True) where
  keep := by
    intro _ op _ hquiet
    cases op with
    | readExactAt src off n => exact ⟨trivial, fun _ _ _ => trivial⟩
    | tryReserve n => exact ⟨trivial, fun _ _ _ => trivial⟩
    | _ => exact hquiet.elim
  read := fun _ _ _ _ _ _ _ => trivial

theorem maps_parse (arch : Arch) (pg : PageSize) (src : Source) :
    Maps ((Image.parse arch src pg.bytes).mapErr Reject.toError) fun _ => True :=
  Calls.mapErr (wp_post_mono (wp_parse (reads_maps src) arch pg trivial) (fun _ _ _ => trivial)
    fun _ _ _ => trivial) _

theorem maps_interpPathOf (image : Image) (src : Source) :
    Maps (interpPathOf image src) fun _ => True := by
  unfold interpPathOf
  split
  · refine Calls.bind (F := fun _ => True) ?_ fun _ _ => trivial
    apply (maps_lift _).bind
    intro ph _
    apply (maps_ask (by trivial)).bind
    intro _ _
    apply (maps_ask (by trivial)).bind
    intro buf _
    split
    · trivial
    · trivial
    · trivial
  · trivial

theorem maps_fillMappedSegment (fd : Int) (seg : SegmentPlan) :
    Maps (fillMappedSegment image fd seg) fun _ => True := by
  apply (maps_lift _).bind
  intro _ _
  apply (maps_lift _).bind
  intro _ _
  apply Calls.bind (F := fun _ => True)
  · unfold mapFilePart
    split
    · exact (maps_ask (by trivial)).bind fun _ _ => trivial
    · trivial
  intro _ _
  apply Calls.bind (F := fun _ => True)
  · unfold clearTail
    split
    · exact maps_ask trivial
    · trivial
  intro _ _
  apply Calls.bind (F := fun _ => True)
  · unfold mapAnonPart
    split
    · exact (maps_ask (by trivial)).bind fun _ _ => trivial
    · trivial
  intro _ _
  unfold closeWriteWindow
  split
  · apply (maps_lift _).bind
    intro _ _
    apply (maps_lift _).bind
    intro _ _
    apply (maps_ask (by trivial)).bind
    intro _ _
    exact maps_lift _
  · trivial

theorem maps_fillMapped (fd : Int) (plan : LoadPlan) :
    Maps (fillMapped image fd plan) fun _ => True := by
  apply (calls_forM fun seg _ => maps_fillMappedSegment fd seg).bind
  intro _ _
  apply calls_forM
  intro seg _
  apply (maps_lift _).bind
  intro ph _
  split
  · split
    · exact maps_ask trivial
    · trivial
  · trivial

theorem maps_unload {l : Loaded} (hl : l.allocated = false) :
    Maps (l.unload : Prog Host ε Unit) fun _ => True := by
  unfold Loaded.unload
  rw [hl]
  exact (maps_ask (by trivial)).bind fun _ _ => trivial

theorem maps_reserve (pageSize vaLo need : Nat) :
    Maps (reserveMapped image pageSize vaLo need) fun _ => True := by
  unfold reserveMapped
  split
  · exact (maps_ask (by trivial)).bind fun _ _ => trivial
  · apply (maps_lift _).bind
    intro _ _
    apply (maps_lift _).bind
    intro _ _
    apply (maps_ask (by trivial)).bind
    intro _ _
    split
    · exact (maps_ask (by trivial)).bind fun _ _ => trivial
    · trivial

theorem maps_loadMapped (fd : Int) (pageSize : Nat) :
    Maps (loadMapped image fd pageSize) fun l => l.allocated = false := by
  apply (maps_lift _).bind
  intro _ _
  apply (maps_lift _).bind
  intro _ _
  apply (maps_reserve _ _ _).bind
  intro _ _
  apply Calls.bind (F := fun _ => True)
  · apply (maps_ask (by trivial)).bind
    intro _ _
    exact maps_lift _
  intro plan _
  apply (maps_fillMapped fd plan).attempt.bind
  intro r _
  cases r with
  | ok u => rfl
  | error e => exact (maps_unload rfl).bind fun _ _ => trivial

theorem maps_load {b : Build} (hb : b.canMapFiles = true) {fd : Option Int} (hfd : fd ≠ none) :
    Maps (load b image src fd) fun l => l.allocated = false := by
  rcases Option.ne_none_iff_exists'.mp hfd with ⟨fd, rfl⟩
  unfold load
  rw [hb]
  exact maps_loadMapped fd _

section Program

variable {b : Build} (hb : b.canMapFiles = true)
include hb

theorem maps_loadInterp (path : Bytes) :
    Maps (loadInterp b path) fun v => v.2.allocated = false := by
  apply (maps_openPath path).bind
  intro opened hfd
  apply (maps_parse b.arch b.page opened.src).bind
  intro image _
  apply (maps_lift _).bind
  intro _ _
  apply (maps_lift _).bind
  intro _ _
  apply (maps_load hb hfd).bind
  intro loaded hloaded
  exact hloaded

/-- No part of the program is in the heap. -/
def AllMapped (p : LoadedProgram) : Prop :=
  p.main.allocated = false ∧ ∀ v, p.interp = some v → v.2.allocated = false

theorem maps_loadProgram (path : Bytes) : Maps (loadProgram b path) AllMapped := by
  apply (maps_openPath path).bind
  intro opened hfd
  apply (maps_parse b.arch b.page opened.src).bind
  intro image _
  apply (maps_lift _).bind
  intro _ _
  apply (maps_interpPathOf image opened.src).bind
  intro ip _
  apply (maps_load hb hfd).bind
  intro main hmain
  apply (maps_lift _).bind
  intro _ _
  apply (maps_lift _).bind
  intro _ _
  apply Calls.bind (F := fun interp => ∀ v, interp = some v → v.2.allocated = false)
  · cases ip with
    | none => exact fun v hv => nomatch hv
    | some ip =>
      apply (maps_loadInterp hb ip).attempt.bind
      intro r hr
      cases r with
      | ok v =>
        rintro v' ⟨⟩
        exact hr v rfl
      | error e => exact (maps_unload hmain).bind fun _ _ => trivial
  intro interp hinterp
  exact ⟨hmain, hinterp⟩

end Program

end Maps

/-! ### Accounts of the loader -/

section Account

variable {ε α : Type} {pg : PageSize} {w : World} {H : Handler Host Space}

theorem opensMappable_of_answers (hw : Mappable w) {s : Space} {op : HostOp} {r : op.Res}
    (h : s.Answers pg w op r) : OpensMappable op r := by
  cases op with
  | openPath path =>
    cases r with
    | ok o => exact hw path o h
    | error e => trivial
  | _ => trivial

/-- A program that keeps to the protocol and maps its files has an account. -/
theorem wp_account (hH : ∀ s op r s', H s op r s' → OpensMappable op r) {p : Prog Host ε α}
    {Q : List Held → Outcome ε α → Prop} {F : α → Prop} {g : List Held} {v : Space}
    (hp : wp (Protocol pg (2 ^ 64)) Permits p Q g) (hmaps : Maps p F) :
    wp (accountStep pg H) AccountPre p (fun a r => Q a.1 r ∧ ∀ x, r = .ok x → F x) (g, v) := by
  have hany : wp (accountStep pg H) (fun _ _ => True) p (fun _ _ => True) (g, v) := by
    apply wp_of_reaches
    · exact fun _ _ _ _ _ => trivial
    · exact fun _ _ _ _ => trivial
  have hboth := wp_ghost (J := fun (g : List Held) (a : Account) => a.1 = g)
    (by
      rintro _ a op r a' rfl - - hstep
      exact ⟨a'.1, hstep.1, rfl⟩) rfl hp hany
  have hall := hmaps.wp (fun _ _ _ _ h => hH _ _ _ _ h.2) hboth
  apply wp_mono (wp_pre_mono hall ?_)
  · rintro a r ⟨⟨-, _, rfl, hQ⟩, hF⟩
    exact ⟨hQ, hF⟩
  · rintro a op ⟨⟨-, _, rfl, hpermits⟩, hop⟩
    exact ⟨hpermits, hop⟩

end Account

/-- **Programs loaded at the same time do not see each other.**  In every state that any
    number of calls of `load_program` can reach together, each has run as it would run alone
    in an empty address space, and the address space is made of what they hold, each page
    with the protection and the bytes it would have there, and of what was mapped before,
    which is untouched. -/
theorem concurrent_loads_isolated {ι : Type} [DecidableEq ι] {pg : PageSize} {w : World}
    (hw : Mappable w) (arch : Arch) (path : ι → Bytes) {s₀ s : Space}
    {q : ι → Prog Host Error LoadedProgram}
    (hrun : Pool (step pg w) s₀ (fun i => loadProgram ⟨arch, pg, true⟩ (path i)) s q) :
    ∃ v : ι → Space, Isolated pg s₀ s v ∧
      ∀ i, ∃ tr, Reaches (step pg w) nothing (loadProgram ⟨arch, pg, true⟩ (path i)) tr (v i)
        (q i) := by
  have hopens (s : Space) (op : HostOp) (r : op.Res) (s' : Space) (h : step pg w s op r s') :=
    opensMappable_of_answers hw h.1
  have hp (i : ι) := wp_account (v := nothing) hopens
    (wp_loadProgram (g := []) ⟨arch, pg, true⟩ (path i))
    (maps_loadProgram rfl (path i))
  rcases pool_isolated hp hrun with ⟨a, hisolated, hall⟩
  exact ⟨fun i => (a i).2, hisolated, hall⟩

/-- A machine can serve a pool. -/
theorem Machine.pool {ι ε α : Type} [DecidableEq ι] (m : Machine) (pg : PageSize) (order : List ι)
    (s : Space) (p : ι → Prog Host ε α) :
    Pool (step pg m.world) s p (runPool (I := Host) (m.exec pg) order s p).1
      (runPool (I := Host) (m.exec pg) order s p).2 :=
  runPool_pool (fun _ op => ⟨m.answers op, rfl⟩) order s p

theorem mappable_oneFile (f : Bytes) : Mappable (oneFile f) := by
  rintro path o ⟨⟩
  exact Option.some_ne_none 3

/-- Two threads load the small program, and their calls take turns. -/
def twoLoads : Space × (Bool → Prog Host Error LoadedProgram) :=
  runPool (I := Host) ((machine (smallElf 0x1100) 16).exec page4K)
    (List.replicate 14 [false, true]).flatten emptySpace
    fun _ => loadProgram ⟨.x86_64, page4K, true⟩ []

def biasOf : Outcome Error LoadedProgram → Option Nat
  | .ok p => some p.main.plan.bias
  | _ => none

theorem twoLoads_isolated :
    (twoLoads.2 false).outcome?.map biasOf = some (some 0xf000) ∧
      (twoLoads.2 true).outcome?.map biasOf = some (some 0x13000) ∧
      ∃ v, Isolated page4K emptySpace twoLoads.1 v ∧
        ∀ i, ∃ tr, Reaches (step page4K (oneFile (smallElf 0x1100))) nothing
          (loadProgram ⟨.x86_64, page4K, true⟩ []) tr (v i) (twoLoads.2 i) := by
  refine ⟨by decide +kernel, by decide +kernel, ?_⟩
  exact concurrent_loads_isolated (mappable_oneFile _) .x86_64 (fun _ => [])
    ((machine (smallElf 0x1100) 16).pool page4K _ _ _)

end ElfLoader.AddressSpace
