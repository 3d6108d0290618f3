import ElfLoader.Startup

/-!
# The program that is run

With the name taken from the command line, the program goes by two names: the path
that is opened, which the search of `PATH` may have replaced, and `argv[0]`, which was
made from the name before the search.  What is scheduled in the end was loaded from that
path, and its stack starts with its base name.
-/

namespace ElfLoader.PathLookup

open ElfLoader Outcome App Util Loader Program Auxv
open ElfLoader.Prog hiding run

/-- What the system says about names. -/
structure System where
  /-- The value of `PATH`. -/
  path : Option Bytes
  exec : Bytes → Bool
  path_nul : ∀ p ∈ path, 0 ∉ p

/-- There is memory, and names are what the system says.  The rest is open. -/
def System.answers (sys : System) : (op : GlueOp) → op.Res → Prop
  | .tryReserve _, r => r = true
  | .getenv name, r => (name = PATH → r = sys.path) ∧ ∀ s ∈ r, 0 ∉ s
  | .pathIsExec path, rc => rc = 0 ↔ sys.exec path = true
  | _, _ => True

abbrev System.remembered (sys : System) : Handler Glue (List (Event Glue)) :=
  remembering sys.answers

/-- The `PATH` that the loader sees. -/
def System.pathIn (sys : System) (c : Cfg) : Option Bytes :=
  if c.haveEnviron then sys.path else none

/-- The parts of a search path between its colons. -/
def Elements : Option Bytes → List Bytes → Prop
  | none, dirs => dirs = []
  | some path, dirs =>
      dirs ≠ [] ∧ (∀ dir ∈ dirs, COLON ∉ dir) ∧ [COLON].intercalate dirs = path

/-- What is opened for the program that was named. -/
structure Opens (sys : System) (c : Cfg) (named path : Bytes) : Prop where
  as_given : isBareName named = false → path = named
  searched : isBareName named = true → ∃ dirs cands, Elements (sys.pathIn c) dirs ∧
    List.Forall₂ (Joins named) dirs cands ∧ path = (cands.find? sys.exec).getD named

/-! ### The search -/

/-- A part between two separators has bytes of the whole, and no separator. -/
theorem mem_of_mem_splitOn {a : UInt8} {s part : Bytes} (hpart : part ∈ s.splitOn a) {x : UInt8}
    (hx : x ∈ part) : x ∈ s ∧ x ≠ a := by
  induction s generalizing part with
  | nil =>
    rw [List.splitOn_nil, List.mem_singleton] at hpart
    subst hpart
    exact absurd hx List.not_mem_nil
  | cons y s ih =>
    rw [List.splitOn_cons_eq_if_modifyHead] at hpart
    split at hpart
    · rcases List.mem_cons.mp hpart with rfl | hpart
      · exact absurd hx List.not_mem_nil
      · exact ⟨List.mem_cons_of_mem _ (ih hpart hx).1, (ih hpart hx).2⟩
    · rename_i hy
      rcases hsplit : s.splitOn a with - | ⟨first, others⟩
      · exact absurd hsplit (List.splitOn_ne_nil a s)
      rw [hsplit] at hpart ih
      rcases List.mem_cons.mp hpart with rfl | hpart
      · rcases List.mem_cons.mp hx with rfl | hx
        · exact ⟨List.mem_cons_self, fun heq => hy (beq_iff_eq.mpr heq)⟩
        · have hin := ih List.mem_cons_self hx
          exact ⟨List.mem_cons_of_mem _ hin.1, hin.2⟩
      · have hin := ih (List.mem_cons_of_mem _ hpart) hx
        exact ⟨List.mem_cons_of_mem _ hin.1, hin.2⟩

def System.dirs (sys : System) (c : Cfg) : List Bytes :=
  match sys.pathIn c with
  | some path => path.splitOn COLON
  | none => []

theorem System.elements_dirs (sys : System) (c : Cfg) :
    Elements (sys.pathIn c) (sys.dirs c) := by
  unfold System.dirs
  cases sys.pathIn c with
  | none => rfl
  | some path =>
    refine ⟨List.splitOn_ne_nil _ _, ?_, List.intercalate_splitOn COLON⟩
    intro dir hdir hcolon
    exact (mem_of_mem_splitOn hdir hcolon).2 rfl

theorem System.dirs_nul (sys : System) {c : Cfg} {path : Bytes} (hpath : sys.pathIn c = some path) :
    ∀ dir ∈ path.splitOn COLON, 0 ∉ dir := by
  have hp : sys.path = some path := by
    unfold System.pathIn at hpath
    split at hpath
    · exact hpath
    · cases hpath
  intro dir hdir hzero
  exact sys.path_nul path hp (mem_of_mem_splitOn hdir hzero).1

theorem forall₂_joins (name : Bytes) (dirs : List Bytes) :
    List.Forall₂ (Joins name) dirs (dirs.map (candidate name)) := by
  induction dirs with
  | nil => exact .nil
  | cons dir dirs ih => exact .cons (joins_candidate name dir) ih

/-- The program has been loaded. -/
def HasLoaded (path : Bytes) (h : List (Event Glue)) : Prop :=
  ∃ loaded, (⟨.loadProgram .vfs path, .ok loaded⟩ : Event Glue) ∈ h

/-- Start-up ended before there was anything to open. -/
def Refused (h : List (Event Glue)) : Prop :=
  (∃ name len, (⟨.threadCreate name len, none⟩ : Event Glue) ∈ h) ∨
    ∃ path, ∃ rc : Int32, (⟨.chdir path, rc⟩ : Event Glue) ∈ h ∧ rc < 0

/-- Start-up has come to open `path`, or had to end before. -/
def Ended (path : Bytes) (h : List (Event Glue)) : Prop :=
  (∃ r, (⟨.loadProgram .vfs path, r⟩ : Event Glue) ∈ h) ∨ Refused h

/-- The call gives no image back, writes no stack and sets no context. -/
def Harmless : GlueOp → Prop
  | .unload _ => False
  | .buildStack .. => False
  | .ctxInit .. => False
  | _ => True

def Untouched (h : List (Event Glue)) : Prop := ∀ e ∈ h, Harmless e.1

/-- The thread has been created under the base name of `path`. -/
structure Created (path : Bytes) (thread : Thread) (h : List (Event Glue)) : Prop where
  created : ∃ len, (⟨.threadCreate (basename path) len, some thread⟩ : Event Glue) ∈ h
  untouched : Untouched h

/-- And `path` has been loaded. -/
structure Holding (path : Bytes) (thread : Thread) (loaded : LoadedProgram)
    (h : List (Event Glue)) : Prop extends Created path thread h where
  loads : (⟨.loadProgram .vfs path, .ok loaded⟩ : Event Glue) ∈ h

/-- Then the stack of the application has been built. -/
def Stacked (path : Bytes) (rest : List Bytes) (thread : Thread) (loaded : LoadedProgram)
    (layout : StackLayout) (h : List (Event Glue)) : Prop :=
  ∃ before range envp aux after, Holding path thread loaded before ∧ Untouched after ∧
    h = before ++ (⟨.buildStack range (basename path :: rest) envp aux, .ok layout⟩ : Event Glue) ::
      after

/-- Then the context of the thread has been set to enter the image on that stack. -/
def Enters (path : Bytes) (rest : List Bytes) (thread : Thread) (h : List (Event Glue)) : Prop :=
  ∃ loaded layout before after, Stacked path rest thread loaded layout before ∧ Untouched after ∧
    h = before ++ (⟨.ctxInit thread layout.sp loaded.entry, ()⟩ : Event Glue) :: after

/-- Then the thread has been handed to the scheduler, which took it. -/
def Started (path : Bytes) (rest : List Bytes) (h : List (Event Glue)) : Prop :=
  ∃ thread, Enters path rest thread h ∧
    (⟨.threadSchedule thread, (0 : Int32)⟩ : Event Glue) ∈ h

/-- What the calls have to be if `path` is opened and its base name is `argv[0]`.  Each
    stage of start-up has the one before it behind it. -/
def Says (path : Bytes) (rest : List Bytes) (h : List (Event Glue)) : GlueOp → Prop
  | .loadProgram opener p => opener = .vfs ∧ p = path
  | .buildStack _ argv _ _ => argv = basename path :: rest ∧ HasLoaded path h
  | .ctxInit thread sp ip => ∃ loaded layout, Stacked path rest thread loaded layout h ∧
      sp = layout.sp ∧ ip = loaded.entry
  | .threadSchedule thread => Enters path rest thread h
  | .waitForever => Started path rest h
  | _ => True

/-- What has been done stays done while harmless calls follow. -/
def Lasts (J : List (Event Glue) → Prop) : Prop := ∀ h h', J h → Untouched h' → J (h ++ h')

theorem Lasts.next {J : List (Event Glue) → Prop} (hlasts : Lasts J) {h : List (Event Glue)}
    (hJ : J h) {op : GlueOp} (hop : Harmless op) (r : op.Res) : J (h ++ [⟨op, r⟩]) :=
  hlasts h _ hJ (List.forall_mem_singleton.mpr hop)

section Search

variable {ε : Type} {sys : System} {path : Bytes} {rest : List Bytes} {h : List (Event Glue)}
  {J : List (Event Glue) → Prop}

/-- One call, which what follows it remembers. -/
theorem wp_get_says {α : Type} (op : GlueOp) {f : op.Res → Prog Glue ε α}
    {Q : List (Event Glue) → Outcome ε α → Prop} (hop : Says path rest h op)
    (hf : ∀ r, sys.answers op r → wp sys.remembered (Says path rest) (f r) Q (h ++ [⟨op, r⟩])) :
    wp sys.remembered (Says path rest) (get op >>= f) Q h := by
  constructor
  · exact hop
  · rintro r h' ⟨hr, rfl⟩
    exact hf r hr

/-- A string without a zero byte can be passed to C, as there is memory. -/
theorem wp_cString (hlasts : Lasts J) (hJ : J h) {s : Bytes} (hs : 0 ∉ s) :
    wp sys.remembered (Says path rest) (cString s)
      (post (fun h _ => J h) (fun _ _ => False) False) h := by
  have hguard : (guardErr (¬ s.contains 0 = true) (errno Error.EINVAL) : Outcome Errno Unit) =
      .ok () := if_pos (by simpa using hs)
  unfold cString
  rw [hguard]
  refine ⟨trivial, ?_⟩
  rintro r h' ⟨hr, rfl⟩
  subst hr
  exact hlasts.next hJ (by trivial) _

theorem wp_getenv (hlasts : Lasts J) (hJ : J h) (c : Cfg) {name : Bytes} (hname : 0 ∉ name) :
    wp sys.remembered (Says path rest) (getenv c name : Prog Glue ε (Option Bytes))
      (post (fun h r => J h ∧ (name = PATH → r = sys.pathIn c) ∧ ∀ s ∈ r, 0 ∉ s)
        (fun _ _ => False) False) h := by
  unfold getenv System.pathIn
  split
  · apply wp_attempt_post (wp_cString hlasts hJ hname)
    · intro h' _ hJ'
      refine ⟨trivial, ?_⟩
      rintro r h'' ⟨hr, rfl⟩
      exact ⟨hlasts.next hJ' (by trivial) _, hr⟩
    · intro _ _ hfalse
      exact hfalse.elim
  · exact ⟨hJ, fun _ => rfl, fun _ hnone => absurd hnone (Option.not_mem_none _)⟩

/-- The loop finds the first candidate that can be executed. -/
theorem wp_locateIn (hlasts : Lasts J) (hJ : J h) {name : Bytes} (hname : 0 ∉ name)
    {dirs : List Bytes} (hdirs : ∀ dir ∈ dirs, 0 ∉ dir) :
    wp sys.remembered (Says path rest) (locateIn name dirs : Prog Glue ε (Option Bytes))
      (post (fun h r => J h ∧ r = (dirs.map (candidate name)).find? sys.exec)
        (fun _ _ => False) False) h := by
  induction dirs generalizing h with
  | nil => exact ⟨hJ, rfl⟩
  | cons dir dirs ih =>
    rw [List.forall_mem_cons] at hdirs
    have hcand := nul_not_mem_of_joins (joins_candidate name dir) hdirs.1 hname
    apply wp_get_says (.tryReserve _) trivial
    intro room hroom
    subst hroom
    apply wp_attempt_post (wp_cString hlasts (hlasts.next hJ (by trivial) _) hcand)
    · intro h' _ hJ'
      apply wp_get_says (.pathIsExec _) trivial
      intro rc hrc
      have hnext : J (h' ++ [⟨.pathIsExec (candidate name dir), rc⟩]) :=
        hlasts.next hJ' (by trivial) rc
      dsimp only [System.answers] at hrc
      rw [List.map_cons, List.find?_cons]
      cases hexec : sys.exec (candidate name dir) with
      | true =>
        have hzero : rc = 0 := hrc.mpr hexec
        change wp _ _ (if rc = 0 then _ else _) _ _
        rw [if_pos hzero]
        exact ⟨hnext, rfl⟩
      | false =>
        have hnonzero : rc ≠ 0 := fun hzero => Bool.false_ne_true (hexec.symm.trans (hrc.mp hzero))
        change wp _ _ (if rc = 0 then _ else _) _ _
        rw [if_neg hnonzero]
        exact ih hnext hdirs.2
    · intro _ _ hfalse
      exact hfalse.elim

/-- The path that the search comes to. -/
def System.located (sys : System) (c : Cfg) (named : Bytes) : Bytes :=
  if isBareName named then
    (((sys.dirs c).map (candidate named)).find? sys.exec).getD named
  else named

theorem wp_resolve (hlasts : Lasts J) (hJ : J h) {c : Cfg} (hpath : c.envpath = true)
    {target : Target} (hnul : 0 ∉ target.path) :
    wp sys.remembered (Says path rest) (resolve c target : Prog Glue ε Target)
      (post (fun h t => J h ∧ t = { target with path := sys.located c target.path })
        (fun _ _ => False) False) h := by
  unfold resolve System.located
  cases hbare : isBareName target.path with
  | false => simp [hpath, hJ]
  | true =>
    rw [hpath]
    apply wp_bind_post (wp_getenv hlasts hJ c (by decide))
    rintro h' pathEnv ⟨hJ', henv, -⟩
    rw [henv rfl]
    cases henv : sys.pathIn c with
    | none => simp [System.dirs, henv, hJ']
    | some pathEnv =>
      simp only [System.dirs, henv, locateInPath, hbare, if_true]
      apply wp_bind_post (wp_locateIn hlasts hJ' hnul (sys.dirs_nul henv))
      rintro h'' found ⟨hJ'', hfound⟩
      rw [← hfound]
      cases found with
      | none => exact ⟨hJ'', rfl⟩
      | some full => exact ⟨hJ'', rfl⟩

/-- `chdir` comes before the program, and may end start-up. -/
theorem wp_changeDir (hlasts : Lasts J) (hJ : J h) (c : Cfg) :
    wp sys.remembered (Says path rest) (changeDir c)
      (post (fun h _ => J h) (fun h _ => Refused h) False) h := by
  unfold changeDir
  split
  · apply wp_bind_err (wp_getenv hlasts hJ c (by decide)) (fun _ _ h => h.elim)
    rintro h' pwd ⟨hJ', -, hnul⟩
    cases pwd with
    | none => exact hJ'
    | some pwd =>
      apply wp_bind_err (wp_cString hlasts hJ' (hnul pwd rfl)) (fun _ _ h => h.elim)
      intro h'' _ hJ''
      apply wp_get_says (.chdir pwd) trivial
      intro rc _
      change post _ _ _ _ (fromC rc)
      unfold fromC
      split
      · exact Or.inr ⟨pwd, rc, by simp, ‹_›⟩
      · exact hlasts.next hJ'' (by trivial) _
  · exact hJ

theorem opens_located (sys : System) (c : Cfg) (named : Bytes) :
    Opens sys c named (sys.located c named) where
  as_given hbare := if_neg (by simp [hbare])
  searched hbare :=
    ⟨sys.dirs c, _, sys.elements_dirs c, forall₂_joins named _, if_pos hbare⟩

end Search

theorem basename_of_forall₂_joins {named : Bytes} {dirs cands : List Bytes}
    (hbare : isBareName named = true) (hjoins : List.Forall₂ (Joins named) dirs cands) :
    ∀ cand ∈ cands, basename cand = named := by
  induction hjoins with
  | nil => exact fun _ hcand => absurd hcand List.not_mem_nil
  | cons hjoin _ ih => exact List.forall_mem_cons.mpr ⟨basename_of_joins hbare hjoin, ih⟩

/-- The search does not change the name. -/
theorem Opens.basename_eq {sys : System} {c : Cfg} {named path : Bytes}
    (ho : Opens sys c named path) : basename path = basename named := by
  cases hbare : isBareName named with
  | false => rw [ho.as_given hbare]
  | true =>
    rcases ho.searched hbare with ⟨dirs, cands, -, hjoins, rfl⟩
    cases hfound : cands.find? sys.exec with
    | none => rfl
    | some cand =>
      have hmem := List.mem_of_find?_eq_some hfound
      rw [basename_of_isBareName hbare]
      exact basename_of_forall₂_joins hbare hjoins cand hmem

/-! ### From the target to the scheduler -/

section Start

variable {ε α : Type} {sys : System} {path : Bytes} {rest : List Bytes} {h : List (Event Glue)}
  {thread : Thread} {loaded : LoadedProgram} {layout : StackLayout}

theorem Untouched.append {h' : List (Event Glue)} (hh : Untouched h) (hh' : Untouched h') :
    Untouched (h ++ h') :=
  List.forall_mem_append.mpr ⟨hh, hh'⟩

theorem HasLoaded.append (hh : HasLoaded path h) (h' : List (Event Glue)) :
    HasLoaded path (h ++ h') := by
  rcases hh with ⟨loaded, hmem⟩
  exact ⟨loaded, List.mem_append_left h' hmem⟩

theorem Holding.hasLoaded (hh : Holding path thread loaded h) : HasLoaded path h :=
  ⟨loaded, hh.loads⟩

theorem Stacked.hasLoaded (hh : Stacked path rest thread loaded layout h) : HasLoaded path h := by
  rcases hh with ⟨before, _, _, _, _, hbefore, -, rfl⟩
  exact hbefore.hasLoaded.append _

theorem Enters.hasLoaded (hh : Enters path rest thread h) : HasLoaded path h := by
  rcases hh with ⟨_, _, before, _, hbefore, -, rfl⟩
  exact hbefore.hasLoaded.append _

theorem lasts_untouched : Lasts Untouched := fun _ _ hh hh' => hh.append hh'

theorem lasts_created : Lasts (Created path thread) := by
  rintro h h' ⟨⟨len, hmem⟩, huntouched⟩ hh'
  exact ⟨⟨len, List.mem_append_left h' hmem⟩, huntouched.append hh'⟩

theorem lasts_holding : Lasts (Holding path thread loaded) := by
  intro h h' hh hh'
  exact ⟨lasts_created h h' hh.toCreated hh', List.mem_append_left h' hh.loads⟩

theorem lasts_enters : Lasts (Enters path rest thread) := by
  rintro _ h' ⟨loaded, layout, before, after, hbefore, hafter, rfl⟩ hh'
  refine ⟨loaded, layout, before, after ++ h', hbefore, hafter.append hh', ?_⟩
  rw [List.append_assoc, List.cons_append]

/-- A stage of start-up once the program is loaded: `J` of a value, and after every other
    end the program has been loaded at least. -/
def stage (path : Bytes) (J : List (Event Glue) → α → Prop) :
    List (Event Glue) → Outcome ε α → Prop
  | h, .ok a => J h a
  | h, .err _ => HasLoaded path h
  | h, .panic => HasLoaded path h

theorem wp_bind_stage {β : Type} {p : Prog Glue ε α} {f : α → Prog Glue ε β}
    {J : List (Event Glue) → α → Prop} {K : List (Event Glue) → β → Prop}
    (hp : wp sys.remembered (Says path rest) p (stage path J) h)
    (hf : ∀ h a, J h a → wp sys.remembered (Says path rest) (f a) (stage path K) h) :
    wp sys.remembered (Says path rest) (p >>= f) (stage path K) h := by
  apply wp_seq hp
  intro h' r hr
  cases r with
  | ok a => exact hf h' a hr
  | err e => exact hr
  | panic => exact hr

theorem stage_lift {r : Outcome ε α} {J : List (Event Glue) → Prop} (hJ : J h)
    (hh : HasLoaded path h) :
    wp sys.remembered (Says path rest) (liftM r : Prog Glue ε α) (stage path fun h _ => J h) h := by
  cases r with
  | ok a => exact hJ
  | err e => exact hh
  | panic => exact hh

/-- A harmless call keeps what has been done. -/
theorem stage_ask {op : GlueOp} {f : op.Res → Outcome ε α} {J : List (Event Glue) → Prop}
    (hop : Says path rest h op) (hharmless : Harmless op) (hlasts : Lasts J) (hJ : J h)
    (hh : HasLoaded path h) :
    wp sys.remembered (Says path rest) (.ask (I := Glue) op f) (stage path fun h _ => J h) h := by
  refine ⟨hop, ?_⟩
  rintro r h' ⟨-, rfl⟩
  have hnext : J (h ++ [⟨op, r⟩]) := hlasts.next hJ hharmless r
  have hloaded := hh.append [⟨op, r⟩]
  change stage path _ _ (f r)
  cases f r with
  | ok a => exact hnext
  | err e => exact hloaded
  | panic => exact hloaded

theorem wp_unload (loaded : LoadedProgram) (hh : HasLoaded path h) :
    wp sys.remembered (Says path rest) (unload loaded : Prog Glue ε Unit)
      (fun h _ => HasLoaded path h) h := by
  have hget (l : Loaded) {h : List (Event Glue)} (hh : HasLoaded path h) :
      wp sys.remembered (Says path rest) (get (.unload l) : Prog Glue ε Unit)
        (fun h _ => HasLoaded path h) h := by
    refine ⟨trivial, ?_⟩
    rintro r h' ⟨-, rfl⟩
    exact hh.append _
  unfold unload
  cases loaded.interp with
  | none => exact hget loaded.main hh
  | some interp => exact wp_bind_kept (hget interp.2 hh) fun _ _ hh => hget loaded.main hh

/-- What ends start-up gives the program back first. -/
theorem wp_unload_then (loaded : LoadedProgram) (hh : HasLoaded path h) {r : Outcome Errno α}
    (hr : ∀ a, r ≠ .ok a) {J : List (Event Glue) → α → Prop} :
    wp sys.remembered (Says path rest) (do unload loaded; .done r : Prog Glue Errno α)
      (stage path J) h := by
  apply wp_seq (wp_unload loaded hh)
  intro h' u hh'
  cases u with
  | ok _ =>
    cases r with
    | ok a => exact absurd rfl (hr a)
    | err e => exact hh'
    | panic => exact hh'
  | err e => exact hh'
  | panic => exact hh'

/-- Only an answer of 0 goes on. -/
theorem stage_orUnload (loaded : LoadedProgram) {rc : Int32} {J : List (Event Glue) → Prop}
    (hJ : rc = 0 → J h) (hh : HasLoaded path h) :
    wp sys.remembered (Says path rest) (orUnload loaded rc) (stage path fun h _ => J h) h := by
  unfold orUnload
  split
  · exact wp_unload_then loaded hh (r := errNeg rc) fun _ => errNeg_ne_ok _
  · rename_i hrc
    exact hJ (not_not.mp hrc)

theorem stage_schedule (c : Cfg) (hh : Stacked path rest thread loaded layout h) :
    wp sys.remembered (Says path rest) (schedule c thread loaded layout)
      (stage path fun h _ => Started path rest h) h := by
  refine ⟨⟨loaded, layout, hh, rfl, rfl⟩, ?_⟩
  rintro _ h₁ ⟨-, rfl⟩
  have henters : Enters path rest thread
      (h ++ [⟨.ctxInit thread layout.sp loaded.entry, ()⟩]) :=
    ⟨loaded, layout, h, [], hh, fun _ he => absurd he List.not_mem_nil, rfl⟩
  apply wp_bind_stage (stage_ask (J := Enters path rest thread) (by trivial) (by trivial)
    lasts_enters henters henters.hasLoaded)
  intro h₂ _ h₂enters
  have hpthread : wp sys.remembered (Says path rest) (makePthread c thread loaded)
      (stage path fun h _ => Enters path rest thread h) h₂ := by
    unfold makePthread
    split
    · apply wp_bind_stage (stage_ask (J := Enters path rest thread) (by trivial)
        (by trivial) lasts_enters h₂enters h₂enters.hasLoaded)
      intro h₃ rc h₃enters
      exact stage_orUnload loaded (fun _ => h₃enters) h₃enters.hasLoaded
    · exact h₂enters
  apply wp_bind_stage hpthread
  intro h₄ _ h₄enters
  refine ⟨h₄enters, ?_⟩
  rintro rc h₅ ⟨-, rfl⟩
  apply stage_orUnload loaded ?_ (h₄enters.hasLoaded.append _)
  intro hrc
  subst hrc
  exact ⟨thread, lasts_enters.next h₄enters (by trivial) _, by simp⟩

theorem stage_environ (c : Cfg) (hh : Holding path thread loaded h) :
    wp sys.remembered (Says path rest) (environ c : Prog Glue ε (List Bytes))
      (stage path fun h _ => Holding path thread loaded h) h := by
  unfold environ
  split
  · apply wp_bind_stage (stage_ask (by trivial) (by trivial) lasts_holding hh hh.hasLoaded)
    exact fun _ _ hh => hh
  · exact hh

theorem stage_environment (c : Cfg) (target : Target) (hh : Holding path thread loaded h) :
    wp sys.remembered (Says path rest) (environment c target : Prog Glue ε Environment)
      (stage path fun h _ => Holding path thread loaded h) h := by
  apply wp_bind_stage (stage_ask (by trivial) (by trivial) lasts_holding hh hh.hasLoaded)
  intro h₁ _ h₁holds
  have hrandom : wp sys.remembered (Says path rest) (randomBytes c : Prog Glue ε (Buf 16))
      (stage path fun h _ => Holding path thread loaded h) h₁ := by
    unfold randomBytes
    split
    · apply wp_bind_stage (stage_ask (by trivial) (by trivial) lasts_holding h₁holds
        h₁holds.hasLoaded)
      exact fun _ _ hh => hh
    · exact h₁holds
  apply wp_bind_stage hrandom
  intro h₂ _ h₂holds
  apply wp_bind_stage (stage_ask (by trivial) (by trivial) lasts_holding h₂holds
    h₂holds.hasLoaded)
  intro h₃ _ h₃holds
  apply wp_bind_stage (stage_ask (by trivial) (by trivial) lasts_holding h₃holds
    h₃holds.hasLoaded)
  exact fun _ _ hh => hh

/-- The stack of the application starts with the base name of what was opened, and the
    application starts on it. -/
theorem stage_start (arch : Elf.Arch) (c : Cfg) {target : Target}
    (hprog : target.progname = basename path) (hh : Holding path thread loaded h) :
    wp sys.remembered (Says path target.rest) (start arch c target thread loaded)
      (stage path fun h _ => Started path target.rest h) h := by
  apply wp_bind_stage (stage_ask (by trivial) (by trivial) lasts_holding hh hh.hasLoaded)
  intro h₁ lo h₁holds
  apply wp_bind_stage (stage_ask (by trivial) (by trivial) lasts_holding h₁holds
    h₁holds.hasLoaded)
  intro h₂ hi h₂holds
  split
  · apply wp_bind_stage (stage_ask (by trivial) (by trivial) lasts_holding h₂holds
      h₂holds.hasLoaded)
    intro h₃ _ h₃holds
    apply wp_bind_stage (stage_environ c h₃holds)
    intro h₄ envp h₄holds
    apply wp_bind_stage (stage_environment c target h₄holds)
    intro h₅ env h₅holds
    apply wp_bind_stage (stage_lift h₅holds h₅holds.hasLoaded)
    intro h₆ aux h₆holds
    refine ⟨⟨by rw [hprog], h₆holds.hasLoaded⟩, ?_⟩
    rintro r h₇ ⟨-, rfl⟩
    cases r with
    | ok layout =>
      apply stage_schedule c
      rw [hprog]
      exact ⟨h₆, _, envp, aux, [], h₆holds, fun _ he => absurd he List.not_mem_nil, rfl⟩
    | error e => exact wp_unload_then loaded (h₆holds.hasLoaded.append _) fun _ => by simp
  · exact wp_unload_then loaded h₂holds.hasLoaded fun _ => by simp

theorem Ended.append (hh : Ended path h) (h' : List (Event Glue)) : Ended path (h ++ h') := by
  rcases hh with ⟨r, hmem⟩ | ⟨name, len, hmem⟩ | ⟨dir, rc, hmem, hrc⟩
  · exact Or.inl ⟨r, List.mem_append_left h' hmem⟩
  · exact Or.inr (Or.inl ⟨name, len, List.mem_append_left h' hmem⟩)
  · exact Or.inr (Or.inr ⟨dir, rc, List.mem_append_left h' hmem, hrc⟩)

theorem HasLoaded.ended (hh : HasLoaded path h) : Ended path h := by
  rcases hh with ⟨loaded, hmem⟩
  exact Or.inl ⟨_, hmem⟩

/-- What is left when the guard goes out of scope: the application was started, or start-up
    has come to an end. -/
def settled (path : Bytes) (rest : List Bytes) : List (Event Glue) → Outcome ε Unit → Prop
  | h, .ok _ => Started path rest h
  | h, .err _ => Ended path h
  | h, .panic => Ended path h

theorem wp_underGuard (arch : Elf.Arch) {c : Cfg} (hvfs : c.vfsexec = true) {target : Target}
    (hpath : target.path = path) (hprog : target.progname = basename path)
    (hh : Created path thread h) :
    wp sys.remembered (Says path target.rest) (underGuard arch c target thread)
      (settled path target.rest) h := by
  apply wp_seq (wp_changeDir lasts_created hh c)
  intro h r hr
  cases r with
  | err e => exact Or.inr hr
  | panic => exact hr.elim
  | ok _ =>
    have hcreated : Created path thread h := hr
    change wp _ _ (loadTarget c target >>= _) _ _
    unfold loadTarget
    rw [hvfs]
    refine ⟨⟨rfl, hpath⟩, ?_⟩
    rintro r h' ⟨-, rfl⟩
    cases r with
    | error e => exact Or.inl ⟨.error e, by simp [hpath]⟩
    | ok loaded =>
      have hholding : Holding path thread loaded
          (h ++ [⟨.loadProgram .vfs target.path, .ok loaded⟩]) :=
        ⟨lasts_created.next hcreated (by trivial) _, by simp [hpath]⟩
      apply wp_mono (stage_start arch c hprog hholding)
      intro h' r hr
      cases r with
      | ok _ => exact hr
      | err e => exact HasLoaded.ended hr
      | panic => exact HasLoaded.ended hr

/-- Start-up, from the command line on. -/
theorem wp_run (arch : Elf.Arch) {c : Cfg} (hvfs : c.vfsexec = true)
    (happ : c.customappname = true) (hpath : c.envpath = true) (kernel : Bytes) {named : Bytes}
    (hnul : 0 ∉ named) (rest : List Bytes) (hh : Untouched h) :
    wp sys.remembered (Says (sys.located c named) rest) (run arch c (kernel :: named :: rest))
      (fun h _ => Ended (sys.located c named) h) h := by
  have hsplit : splitCommandLine c (kernel :: named :: rest) =
      .ok ⟨named, basename named, rest⟩ := by
    simp [splitCommandLine, hvfs, happ]
  have hname := (opens_located sys c named).basename_eq
  unfold run
  rw [hsplit]
  apply wp_seq (wp_resolve lasts_untouched hh hpath hnul)
  intro h r hr
  cases r with
  | err e => exact hr.elim
  | panic => exact hr.elim
  | ok target =>
    rcases hr with ⟨hresolved, htarget⟩
    have htpath : target.path = sys.located c named := by rw [htarget]
    have hprog : target.progname = basename (sys.located c named) := by rw [htarget, hname]
    have hrest : target.rest = rest := by rw [htarget]
    have hpnul : 0 ∉ target.progname := by
      rw [htarget]
      exact fun hzero => hnul (mem_of_mem_basename hzero)
    rw [← hrest]
    apply wp_seq (wp_cString lasts_untouched hresolved hpnul)
    intro h r hr
    cases r with
    | err e => exact hr.elim
    | panic => exact hr.elim
    | ok _ =>
      apply wp_get_says (.threadCreate _ _) trivial
      intro thread _
      cases thread with
      | none => exact Or.inr (Or.inl ⟨_, _, List.mem_append_right _ List.mem_cons_self⟩)
      | some thread =>
        have hcreated : Created (sys.located c named) thread
            (h ++ [⟨.threadCreate target.progname c.stackLen.toNat, some thread⟩]) :=
          ⟨⟨c.stackLen.toNat, by simp [hprog]⟩, lasts_untouched.next hr (by trivial) _⟩
        apply wp_bind.mpr
        apply wp_attempt.mpr
        apply wp_mono (wp_underGuard arch hvfs htpath hprog hcreated)
        intro h r hsettled
        cases r with
        | ok _ => exact ⟨hsettled, fun never => never.elim⟩
        | err e =>
          apply wp_get_says (.threadRelease thread) trivial
          intro _ _
          exact Ended.append hsettled _
        | panic => exact hsettled

end Start

/-- What a run has done for a program that was named: it opened `path`, and nothing else,
    unless it ended before; the application it built a stack for was loaded from there and
    has its base name as `argv[0]`; and the thread it schedules enters that application on
    that stack.  Where it waits, the scheduler has taken the thread. -/
structure Runs (path : Bytes) (rest : List Bytes) (tr : List (Event Glue))
    (q : Prog Glue Errno Unit) : Prop where
  opened : ∀ opener p r, (⟨.loadProgram opener p, r⟩ : Event Glue) ∈ tr → opener = .vfs ∧ p = path
  argv : ∀ before range argv envp aux r after,
    tr = before ++ (⟨.buildStack range argv envp aux, r⟩ : Event Glue) :: after →
      argv = basename path :: rest ∧ HasLoaded path before
  entered : ∀ before thread sp ip u after,
    tr = before ++ (⟨.ctxInit thread sp ip, u⟩ : Event Glue) :: after →
      ∃ loaded layout, Stacked path rest thread loaded layout before ∧ sp = layout.sp ∧
        ip = loaded.entry
  scheduled : ∀ before thread rc after,
    tr = before ++ (⟨.threadSchedule thread, rc⟩ : Event Glue) :: after →
      Enters path rest thread before
  waits : ∀ next, q = .call (I := Glue) .waitForever next → Started path rest tr
  ended : ∀ v, q = .done v → Ended path tr

theorem runs_located (arch : Elf.Arch) {c : Cfg} (hvfs : c.vfsexec = true)
    (happ : c.customappname = true) (hpath : c.envpath = true) (sys : System) {kernel named : Bytes}
    {rest : List Bytes} (hnul : 0 ∉ named) {tr : List (Event Glue)} {q : Prog Glue Errno Unit}
    (hrun : Reaches (fun _ op r _ => sys.answers op r) () (run arch c (kernel :: named :: rest)) tr
      () q) : Runs (sys.located c named) rest tr q := by
  have hwp : wp sys.remembered (Says (sys.located c named) rest)
      (run arch c (kernel :: named :: rest)) (fun h _ => Ended (sys.located c named) h) [] :=
    wp_run arch hvfs happ hpath kernel hnul rest fun _ he => absurd he List.not_mem_nil
  have hremembered := hrun.remembering []
  rw [List.nil_append] at hremembered
  have hsaid := hremembered.forall_split hwp
  constructor
  · intro opener p r hmem
    rcases List.append_of_mem hmem with ⟨before, after, hsplit⟩
    exact hsaid before _ after hsplit
  · intro before range argv envp aux r after hsplit
    exact hsaid before _ after hsplit
  · intro before thread sp ip u after hsplit
    exact hsaid before _ after hsplit
  · intro before thread rc after hsplit
    exact hsaid before _ after hsplit
  · intro next hq
    subst hq
    exact (wp_reaches hwp hremembered).1
  · intro v hv
    subst hv
    exact wp_reaches hwp hremembered

/-- **The program that was named is the one that is opened and started, under that name.** -/
theorem run_opens_named (arch : Elf.Arch) {c : Cfg} (hvfs : c.vfsexec = true)
    (happ : c.customappname = true) (hpath : c.envpath = true) (sys : System) {args : List Bytes}
    (hargs : ∀ arg ∈ args, 0 ∉ arg) {tr : List (Event Glue)} {q : Prog Glue Errno Unit}
    (hrun : Reaches (fun _ op r _ => sys.answers op r) () (run arch c args) tr () q) :
    (args.length < 2 ∧ tr = []) ∨
      ∃ kernel named rest path, args = kernel :: named :: rest ∧ Opens sys c named path ∧
        Runs path rest tr q := by
  match args with
  | [] =>
    rw [show run arch c [] = .done (.err (errno Error.EINVAL)) by simp [run, splitCommandLine, happ]]
      at hrun
    exact Or.inl ⟨by decide, (reaches_done hrun).1⟩
  | [kernel] =>
    rw [show run arch c [kernel] = .done (.err (errno Error.EINVAL)) by
      simp [run, splitCommandLine, happ]] at hrun
    exact Or.inl ⟨Nat.one_lt_two, (reaches_done hrun).1⟩
  | kernel :: named :: rest =>
    have hnul : 0 ∉ named := hargs named (by simp)
    exact Or.inr ⟨kernel, named, rest, sys.located c named, rfl, opens_located sys c named,
      runs_located arch hvfs happ hpath sys hnul hrun⟩

/-! The boot of `app`, which is in the current directory only. -/

def searchCfg : Cfg := { bootCfg with haveEnviron := true, envpath := true }

/-- `PATH` is `/bin::/lib/`. -/
def searchSystem : System where
  path := some [0x2f, 0x62, 0x69, 0x6e, 0x3a, 0x3a, 0x2f, 0x6c, 0x69, 0x62, 0x2f]
  exec path := path == [0x2e, 0x2f, 0x61, 0x70, 0x70]
  path_nul := by decide

/-- The answers up to the scheduler's, which takes the thread. -/
def searchAnswer : (op : GlueOp) → Option op.Res
  | .getenv name => some (if name = PATH then searchSystem.path else none)
  | .pathIsExec path => some (if searchSystem.exec path then 0 else -2)
  | op => bootAnswer (fun _ => true) 0 op

theorem searchAnswer_answers (op : GlueOp) (r : op.Res) (h : searchAnswer op = some r) :
    searchSystem.answers op r := by
  cases op with
  | tryReserve n =>
    cases h
    rfl
  | getenv name =>
    cases h
    constructor
    · exact fun hname => if_pos hname
    · split
      · exact searchSystem.path_nul
      · exact fun _ hnone => absurd hnone (Option.not_mem_none _)
  | pathIsExec path =>
    cases h
    have hnonzero : (-2 : Int32) ≠ 0 := by decide
    dsimp only [System.answers]
    split
    · exact iff_of_true rfl ‹_›
    · exact iff_of_false hnonzero ‹_›
  | _ => trivial

def searchRun : List (Event Glue) × Unit × Prog Glue Errno Unit :=
  (run .x86_64 searchCfg bootArgs).runUntil (I := Glue)
    (fun _ op => (searchAnswer op).map fun r => (r, ())) ()

/-- The call is the one that waits for the application. -/
def isWaiting : Prog Glue Errno Unit → Bool
  | .call .waitForever _ => true
  | _ => false

theorem eq_call_of_isWaiting {p : Prog Glue Errno Unit} (h : isWaiting p = true) :
    ∃ next, p = .call (I := Glue) .waitForever next := by
  cases p with
  | done r => cases h
  | call op next =>
    cases op with
    | waitForever => exact ⟨next, rfl⟩
    | _ => cases h

/-- `app` is found, loaded and scheduled. -/
theorem app_starts : ∃ path, Opens searchSystem searchCfg [0x61, 0x70, 0x70] path ∧
    Runs path [] searchRun.1 searchRun.2.2 ∧ Started path [] searchRun.1 := by
  have hrun : Reaches (fun _ op r _ => searchSystem.answers op r) ()
      (run .x86_64 searchCfg bootArgs) searchRun.1 () searchRun.2.2 := by
    apply runUntil_reaches
    intro _ op r _ hanswer
    rw [Option.map_eq_some_iff] at hanswer
    rcases hanswer with ⟨a, ha, hpair⟩
    cases hpair
    exact searchAnswer_answers op _ ha
  have hwaiting : isWaiting searchRun.2.2 = true := by decide +kernel
  rcases eq_call_of_isWaiting hwaiting with ⟨next, hnext⟩
  rcases run_opens_named .x86_64 rfl rfl rfl searchSystem (by decide) hrun with
    ⟨hshort, -⟩ | ⟨kernel, named, rest, path, hargs, hopens, hruns⟩
  · exact absurd hshort (by decide)
  · cases hargs
    exact ⟨path, hopens, hruns, hruns.waits next hnext⟩

end ElfLoader.PathLookup
