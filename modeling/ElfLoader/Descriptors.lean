import ElfLoader.Custody
import ElfLoader.Etc

/-!
# The descriptors of `gen_etc`

`cf_create` opens a file and hands the descriptor to a generator, which closes it on
its one way out.  `cf_create` has a way out of its own after `open`, though: where
`chmod` fails, its error takes the place of the descriptor.
-/

namespace ElfLoader.Etc

open ElfLoader Prog Conffile

/-- The descriptor that a call obtained. -/
def opened : Event Posix → Option Int32
  | ⟨.openFile _ _ _, fd⟩ => if (fd : Int32) < 0 then none else some fd
  | _ => none

def closed : Event Posix → Option Int32
  | ⟨.close fd, _⟩ => some fd
  | _ => none

/-- The descriptor that a call is issued on. -/
def issuedOn : Event Posix → Option Int32
  | ⟨.write fd _ _, _⟩ => some fd
  | ⟨.close fd, _⟩ => some fd
  | _ => none

def descriptors : Custody (Event Posix) Int32 where
  acquires := opened
  releases := closed
  uses := issuedOn
  uses_of_releases := by
    rintro ⟨op, r⟩ fd h
    cases op with
    | close fd' => exact h
    | _ => exact absurd h (Option.some_ne_none fd).symm

def ChmodFails : Event Posix → Prop
  | ⟨.chmod _ _, rc⟩ => (rc : Int32) < 0
  | _ => False

/-- The program holds no descriptor when it starts, nor when it returns, unless it could
    not `chmod` a file it had opened. -/
def Tidy {α : Type} (p : CProg α) : Prop :=
  ∀ tr q, Reaches anyAnswer () p tr () q → descriptors.Owned tr ∧
    ∀ a, q = .done (.ok a) → (descriptors.ReleasedOnce tr ↔ ∀ e ∈ tr, ¬ ChmodFails e)

section Tidy

variable {α β : Type}

theorem Tidy.bind {p : CProg α} {f : α → CProg β} (hp : Tidy p) (hf : ∀ a, Tidy (f a)) :
    Tidy (p >>= f) := by
  intro tr q hrun
  rcases hrun.of_bind with ⟨p', hfirst, rfl, hne⟩ | ⟨tr₁, tr₂, ⟨⟩, a, rfl, hfirst, hsecond⟩
  · exact ⟨(hp tr p' hfirst).1, fun b h => absurd h (bind_ne_ok hne f b)⟩
  · have hown₁ := (hp tr₁ _ hfirst).1
    have hown₂ := (hf a tr₂ q hsecond).1
    constructor
    · exact hown₁.append hown₂
    · intro b hb
      rw [Custody.releasedOnce_append hown₂, (hp tr₁ _ hfirst).2 a rfl,
        (hf a tr₂ q hsecond).2 b hb, List.forall_mem_append]

/-- A call that no descriptor has to do with. -/
def Quiet (e : Event Posix) : Prop :=
  opened e = none ∧ issuedOn e = none ∧ ¬ ChmodFails e

theorem tidy_of_quiet {p : CProg α}
    (hp : ∀ tr q, Reaches anyAnswer () p tr () q → ∀ e ∈ tr, Quiet e) : Tidy p := by
  intro tr q hrun
  have hquiet := hp tr q hrun
  constructor
  · exact Custody.owned_of_no_use fun e he => (hquiet e he).2.1
  · intro a _
    apply iff_of_true
    · exact Custody.releasedOnce_of_no_acquire fun e he => (hquiet e he).1
    · exact fun e he => (hquiet e he).2.2

theorem tidy_done (r : Outcome Busy α) : Tidy (.done r : CProg α) := by
  apply tidy_of_quiet
  intro tr q hrun
  cases hrun
  exact fun e he => absurd he List.not_mem_nil

theorem tidy_get {op : PosixOp} (hop : ∀ r, Quiet ⟨op, r⟩) : Tidy (get op) := by
  apply tidy_of_quiet
  intro tr q hrun e he
  cases hrun with
  | refl => exact absurd he List.not_mem_nil
  | step _ hrest =>
    cases hrest
    rcases List.mem_singleton.mp he with rfl
    exact hop _

theorem tidy_cfMkdir (dpath : Bytes) (dmode : UInt32) : Tidy (cfMkdir dpath dmode) := by
  apply (tidy_get fun _ => ⟨rfl, rfl, id⟩).bind
  intro found
  dsimp only
  split
  · exact tidy_done _
  split
  · exact tidy_done _
  split
  · exact tidy_done _
  apply (tidy_get fun _ => ⟨rfl, rfl, id⟩).bind
  intro rc
  split
  · exact tidy_done _
  · exact tidy_done _

end Tidy

/-! ### What a generator does with its descriptor -/

/-- The calls of what is printed through `fd`. -/
def Through (fd : Int32) : PosixOp → Prop
  | .write fd' _ _ => fd' = fd
  | .openFile _ _ _ => False
  | .chmod _ _ => False
  | .close _ => False
  | _ => True

abbrev Writes (fd : Int32) {α : Type} (p : CProg α) : Prop :=
  wp anyAnswer (fun _ op => Through fd op) p (fun _ _ => True) ()

section Writes

variable {fd : Int32} {α β : Type}

theorem Writes.bind {p : CProg α} {f : α → CProg β} (hp : Writes fd p)
    (hf : ∀ a, Writes fd (f a)) : Writes fd (p >>= f) :=
  wp_bind_kept hp fun _ a _ => hf a

theorem writes_get (op : PosixOp) (hop : Through fd op) : Writes fd (get op) :=
  ⟨hop, fun _ _ _ => trivial⟩

theorem writes_cfWrite (turns : Nat) (buf : Ptr) (buflen : UInt64) :
    Writes fd (cfWrite fd turns buf buflen) := by
  induction turns generalizing buf buflen with
  | zero => trivial
  | succ turns ih =>
    apply (writes_get (.write fd buf buflen) rfl).bind
    intro rc
    split
    · split
      · trivial
      split
      · exact ih _ _
      · trivial
    · dsimp only
      split
      · exact ih _ _
      · trivial

theorem writes_cfNprintf (turns : Nat) (text : Bytes) : Writes fd (cfNprintf turns fd LINE text) := by
  apply (writes_get (.vsnprintf (start .buf) LINE text) trivial).bind
  intro strlen
  split
  · trivial
  · exact writes_cfWrite _ _ _

theorem writes_cfStrcpy (turns : Nat) (s : Bytes) : Writes fd (cfStrcpy turns fd s) := by
  unfold cfStrcpy
  split
  · trivial
  · exact writes_cfWrite _ _ _

theorem writes_inherited (fd : Int32) : Inherited fd (Writes fd) where
  done _ := trivial
  bind := Writes.bind
  store p c := writes_get (.store p c) trivial
  cstr p := writes_get (.cstr p) trivial
  print := writes_cfNprintf
  copy := writes_cfStrcpy

end Writes

/-! ### What becomes of a descriptor -/

abbrev CREATED : UInt32 := O_CREAT ||| O_WRONLY ||| O_TRUNC

/-- `cf_create` has not opened the file, has opened it and failed to `chmod` it, or has
    opened it and answers the descriptor. -/
theorem cfOpen_cases {fpath : Bytes} {fmode : UInt32} {tr : List (Event Posix)} {rc : Int32}
    (hrun : Reaches anyAnswer () (cfOpen fpath fmode) tr () (.done (.ok rc))) :
    (rc < 0 ∧ tr = [⟨.openFile fpath CREATED 0, rc⟩]) ∨
      ∃ fd rc' : Int32, ¬ fd < 0 ∧
        tr = [⟨.openFile fpath CREATED 0, fd⟩, ⟨.chmod fpath fmode, rc'⟩] ∧
        (rc' < 0 ∧ rc = rc' ∨ ¬ rc' < 0 ∧ rc = fd) := by
  rcases reaches_get_value hrun with ⟨fd, ⟨⟩, tr, rfl, -, hrest⟩
  split at hrest
  · rcases reaches_done hrest with ⟨rfl, -, hrc⟩
    cases hrc
    exact Or.inl ⟨‹_›, rfl⟩
  · rcases reaches_get_value hrest with ⟨rc', ⟨⟩, tr, rfl, -, hrest⟩
    refine Or.inr ⟨fd, rc', ‹_›, ?_⟩
    split at hrest
    · rcases reaches_done hrest with ⟨rfl, -, hrc⟩
      cases hrc
      exact ⟨rfl, Or.inl ⟨‹_›, rfl⟩⟩
    · rcases reaches_done hrest with ⟨rfl, -, hrc⟩
      cases hrc
      exact ⟨rfl, Or.inr ⟨‹_›, rfl⟩⟩

theorem cfOpen_unused {fpath : Bytes} {fmode : UInt32} {tr : List (Event Posix)} {q : CProg Int32}
    (hrun : Reaches anyAnswer () (cfOpen fpath fmode) tr () q) : ∀ e ∈ tr, issuedOn e = none := by
  have hwp : wp anyAnswer (fun _ op => ∀ r, issuedOn ⟨op, r⟩ = none) (cfOpen fpath fmode)
      (fun _ _ => True) () := by
    apply wp_get_bind.mpr
    refine ⟨fun _ => rfl, fun fd _ _ => ?_⟩
    split
    · trivial
    apply wp_get_bind.mpr
    refine ⟨fun _ => rfl, fun rc _ _ => ?_⟩
    split
    · trivial
    · trivial
  intro e he
  exact hrun.forall_event hwp e he e.2

/-- A call on the way of `fd` from `open` to `close`. -/
def Between (fd : Int32) (e : Event Posix) : Prop :=
  opened e = none ∧ closed e = none ∧ (issuedOn e = none ∨ issuedOn e = some fd) ∧ ¬ ChmodFails e

theorem between_of_through {fd : Int32} {e : Event Posix} (h : Through fd e.1) : Between fd e := by
  rcases e with ⟨op, r⟩
  cases op with
  | write fd' buf len => exact ⟨rfl, rfl, Or.inr (congrArg some h), id⟩
  | openFile path flags mode => exact h.elim
  | chmod path mode => exact h.elim
  | close fd' => exact h.elim
  | _ => exact ⟨rfl, rfl, Or.inl rfl, id⟩

section Opened

variable {o : Event Posix} {fd : Int32} {tr : List (Event Posix)} (ho : opened o = some fd)
  (htr : ∀ e ∈ tr, Between fd e)
include ho htr

theorem printing_owned (hissued : issuedOn o = none) : descriptors.Owned (o :: tr) :=
  Custody.owned_cons ho hissued (fun e he => (htr e he).2.1) fun e he => (htr e he).2.2.1

theorem closed_owned (hissued : issuedOn o = none) (r : Int32) :
    descriptors.Owned (o :: (tr ++ [⟨.close fd, r⟩])) := by
  have hheld : descriptors.Held fd (o :: tr) := Custody.held_cons ho fun e he => (htr e he).2.1
  apply (printing_owned ho htr hissued).concat
  intro fd' hfd'
  rcases Option.some.inj hfd' with rfl
  exact hheld

/-- How often the descriptor was closed, if nothing else was opened or closed. -/
theorem closed_releasedOnce (last : List (Event Posix)) (hlast : ∀ e ∈ last, opened e = none) :
    descriptors.ReleasedOnce (o :: (tr ++ last)) ↔
      last.countP (fun e => closed e = some fd) = 1 := by
  have hnone : tr.countP (fun e => closed e = some fd) = 0 := by
    apply List.countP_eq_zero.mpr
    intro e he
    simp [(htr e he).2.1]
  have hopened : ∀ e ∈ tr ++ last, opened e = none :=
    List.forall_mem_append.mpr ⟨fun e he => (htr e he).1, hlast⟩
  have hcount : descriptors.ReleasedOnce (o :: (tr ++ last)) ↔
      (tr ++ last).countP (fun e => closed e = some fd) = 1 := Custody.releasedOnce_cons ho hopened
  rwa [List.countP_append, hnone, Nat.zero_add] at hcount

end Opened

/-- What a generator does with what `cf_create` answers. -/
abbrev useFile (c : Config) (body : Int32 → CProg Int32) (fd : Int32) : CProg Int32 :=
  if c.exist = .skip ∧ fd = -EEXIST then pure 0
  else if fd < 0 then pure fd
  else do
    let rc ← body fd
    cfClose fd
    pure rc

theorem useFile_neg (c : Config) (body : Int32 → CProg Int32) {fd : Int32} (hfd : fd < 0) :
    ∃ rc : Int32, useFile c body fd = pure rc := by
  unfold useFile
  split
  · exact ⟨0, rfl⟩
  · exact ⟨fd, rfl⟩

theorem useFile_nonneg (c : Config) (body : Int32 → CProg Int32) {fd : Int32} (hfd : ¬ fd < 0) :
    useFile c body fd = body fd >>= fun rc => cfClose fd >>= fun _ => pure rc := by
  have hexist : ¬ (c.exist = .skip ∧ fd = -EEXIST) := by
    rintro ⟨-, rfl⟩
    exact hfd (by decide)
  exact (if_neg hexist).trans (if_neg hfd)

/-- What was opened is printed to and closed. -/
theorem tidy_printed {o h : Event Posix} {fd : Int32} {p : CProg Int32} (ho : opened o = some fd)
    (hissued : issuedOn o = none) (hchmod : ¬ ChmodFails o) (hh : Between fd h) (hp : Writes fd p)
    {tr : List (Event Posix)} {q : CProg Int32}
    (hrun : Reaches anyAnswer () (p >>= fun rc => cfClose fd >>= fun _ => pure rc) tr () q) :
    descriptors.Owned (o :: h :: tr) ∧ ∀ rc, q = .done (.ok rc) →
      (descriptors.ReleasedOnce (o :: h :: tr) ↔ ∀ e ∈ o :: h :: tr, ¬ ChmodFails e) := by
  rcases hrun.of_bind with ⟨p', hbody, rfl, hne⟩ | ⟨tr₁, tr₂, ⟨⟩, rc, rfl, hbody, hclose⟩
  · have hbetween : ∀ e ∈ h :: tr, Between fd e :=
      List.forall_mem_cons.mpr ⟨hh, fun e he => between_of_through (hbody.forall_event hp e he)⟩
    exact ⟨printing_owned ho hbetween hissued, fun b hb => absurd hb (bind_ne_ok hne _ b)⟩
  · have hbetween : ∀ e ∈ h :: tr₁, Between fd e :=
      List.forall_mem_cons.mpr ⟨hh, fun e he => between_of_through (hbody.forall_event hp e he)⟩
    rcases reaches_get_cases hclose with ⟨rfl, rfl⟩ | ⟨r, ⟨⟩, tr', rfl, -, hend⟩
    · rw [List.append_nil]
      exact ⟨printing_owned ho hbetween hissued, fun b hb => nomatch hb⟩
    · rcases reaches_done hend with ⟨rfl, -, rfl⟩
      constructor
      · exact closed_owned ho hbetween hissued r
      · intro _ _
        have honce := closed_releasedOnce ho hbetween [⟨.close fd, r⟩] (by simp [opened])
        apply iff_of_true
        · exact honce.mpr (by simp [closed])
        · have hlast : ∀ e ∈ [(⟨.close fd, r⟩ : Event Posix)], ¬ ChmodFails e := by simp [ChmodFails]
          have hrest : ∀ e ∈ (h :: tr₁) ++ [⟨.close fd, r⟩], ¬ ChmodFails e :=
            List.forall_mem_append.mpr ⟨fun e he => (hbetween e he).2.2.2, hlast⟩
          exact List.forall_mem_cons.mpr ⟨hchmod, hrest⟩

/-- From the check for an existing file on. -/
theorem tidy_opened (c : Config) {body : Int32 → CProg Int32} (hbody : ∀ fd, Writes fd (body fd))
    (fpath : Bytes) (fmode : UInt32) : Tidy (cfOpen fpath fmode >>= useFile c body) := by
  intro tr q hrun
  rcases hrun.of_bind with ⟨p', hfirst, rfl, hne⟩ | ⟨tr₁, tr₂, ⟨⟩, fd, rfl, hfirst, hrest⟩
  · constructor
    · exact Custody.owned_of_no_use (cfOpen_unused hfirst)
    · exact fun b h => absurd h (bind_ne_ok hne _ b)
  · rcases cfOpen_cases hfirst with ⟨hneg, rfl⟩ | ⟨fd', rc, hfd, rfl, ⟨hfail, rfl⟩ | ⟨hok, rfl⟩⟩
    · rcases useFile_neg c body hneg with ⟨rc, heq⟩
      rw [heq] at hrest
      rcases reaches_done hrest with ⟨rfl, -, rfl⟩
      constructor
      · exact Custody.owned_of_no_use (cfOpen_unused hfirst)
      · intro _ _
        apply iff_of_true
        · apply Custody.releasedOnce_of_no_acquire
          intro e he
          rcases List.mem_singleton.mp he with rfl
          exact if_pos hneg
        · simp [ChmodFails]
    · -- the descriptor is given up here
      rcases useFile_neg c body hfail with ⟨rc, heq⟩
      rw [heq] at hrest
      rcases reaches_done hrest with ⟨rfl, -, rfl⟩
      constructor
      · exact Custody.owned_of_no_use (cfOpen_unused hfirst)
      · intro _ _
        have hfd' : opened ⟨.openFile fpath CREATED 0, fd'⟩ = some fd' := if_neg hfd
        have honce := closed_releasedOnce hfd' (fun e he => absurd he List.not_mem_nil)
          [⟨.chmod fpath fmode, fd⟩] (by simp [opened])
        apply iff_of_false
        · exact fun h => absurd (honce.mp h) (by simp [closed])
        · exact fun h => h ⟨.chmod fpath fmode, fd⟩ (by simp) hfail
    · have hfd' : opened ⟨.openFile fpath CREATED 0, fd⟩ = some fd := if_neg hfd
      have hchmod : Between fd ⟨.chmod fpath fmode, rc⟩ := ⟨rfl, rfl, Or.inl rfl, hok⟩
      rw [useFile_nonneg c body hfd] at hrest
      exact tidy_printed hfd' rfl id hchmod (hbody fd) hrest

theorem tidy_withFile (c : Config) {body : Int32 → CProg Int32} (hbody : ∀ fd, Writes fd (body fd))
    (fpath : Bytes) (fmode : UInt32) : Tidy (withFile c fpath fmode body) := by
  have herror {fd : Int32} (hfd : fd < 0) : Tidy (pure fd >>= useFile c body) := by
    rcases useFile_neg c body hfd with ⟨rc, heq⟩
    rw [pure_bind, heq]
    exact tidy_done _
  have hopened := tidy_opened c hbody fpath fmode
  change Tidy (cfCreate c.exist fpath fmode >>= useFile c body)
  unfold cfCreate
  rw [bind_assoc]
  apply (tidy_get fun _ => ⟨rfl, rfl, id⟩).bind
  intro found
  dsimp only
  split
  · cases c.exist with
    | error => exact herror (by decide)
    | skip => exact herror (by decide)
    | replace =>
      dsimp only
      split
      · exact herror (by decide)
      · exact hopened
  · exact hopened

theorem tidy_genEtc (c : Config) (turns : Nat) (devs : Netdevs) : Tidy (genEtc c turns devs) := by
  apply genEtc_of (G := fun p => Tidy p) (fun _ => tidy_done _)
  · intro p rest hp hrest
    apply hp.bind
    intro rc
    split
    · exact tidy_done _
    · exact hrest
  · exact tidy_cfMkdir
  · intro body fpath fmode hprints
    exact tidy_withFile c (fun fd => hprints fd (Writes fd) (writes_inherited fd)) fpath fmode

/-- Every descriptor obtained was closed once, and none was written to or closed that was
    not open. -/
def Clean (tr : List (Event Posix)) : Prop := descriptors.ReleasedOnce tr ∧ descriptors.Owned tr

/-- **The descriptors of `gen_etc`.**  At no point of a run has a descriptor been used
    that was not open, and a run that returns has closed what it opened exactly if no
    `chmod` failed in it. -/
theorem genEtc_clean_iff (c : Config) (turns : Nat) (devs : Netdevs) {tr : List (Event Posix)}
    {q : CProg Int32} (hrun : Reaches anyAnswer () (genEtc c turns devs) tr () q) :
    descriptors.Owned tr ∧
      ∀ rc, q = .done (.ok rc) → (Clean tr ↔ ∀ e ∈ tr, ¬ ChmodFails e) := by
  rcases tidy_genEtc c turns devs tr q hrun with ⟨howned, honce⟩
  constructor
  · exact howned
  · intro rc hrc
    rw [← honce rc hrc]
    exact and_iff_left howned

def resolvconfOnly : Config := ⟨.replace, true, false, false, false⟩

def withNameserver : Netdev where
  einfo
    | .dns0 => some ⟨ascii "10.0.0.1", by decide⟩
    | _ => none

def createResolvconf : List (Event Posix) := [
  ⟨.stat (ascii "/etc"), (0, S_IFDIR)⟩,
  ⟨.stat (ascii "/etc/resolv.conf"), (-1, 0)⟩,
  ⟨.openFile (ascii "/etc/resolv.conf") CREATED 0, (3 : Int32)⟩]

/-- There is no space for what is written, and the file is closed. -/
theorem unwritten_resolvconf_clean :
    let tr := createResolvconf ++ [
      ⟨.chmod (ascii "/etc/resolv.conf") 0o644, (0 : Int32)⟩,
      ⟨.vsnprintf (start .buf) LINE (nameserverLine (ascii "10.0.0.1")), (20 : Int32)⟩,
      ⟨.write 3 (start .buf) 20, (-28 : Int64)⟩,
      ⟨.close 3, (0 : Int32)⟩]
    Reaches anyAnswer () (genEtc resolvconfOnly 1 [some withNameserver]) tr () (.done (.ok (-28))) ∧
      Clean tr := by
  intro tr
  have hrun : Reaches anyAnswer () (genEtc resolvconfOnly 1 [some withNameserver]) tr ()
      (.done (.ok (-28))) :=
    reaches_anyAnswer <| reaches_anyAnswer <| reaches_anyAnswer <| reaches_anyAnswer <|
      reaches_anyAnswer <| reaches_anyAnswer <| reaches_anyAnswer <| .refl _ _
  constructor
  · exact hrun
  · apply ((genEtc_clean_iff _ _ _ hrun).2 _ rfl).mpr
    simp [tr, createResolvconf, ChmodFails]

/-- The file is there and cannot be made readable: descriptor 3 stays open. -/
theorem chmod_failure_leaks :
    let tr := createResolvconf ++ [⟨.chmod (ascii "/etc/resolv.conf") 0o644, (-1 : Int32)⟩]
    Reaches anyAnswer () (genEtc resolvconfOnly 1 []) tr () (.done (.ok (-1))) ∧ ¬ Clean tr := by
  intro tr
  constructor
  · exact reaches_anyAnswer <| reaches_anyAnswer <| reaches_anyAnswer <| reaches_anyAnswer <|
      .refl _ _
  · rintro ⟨honce, -⟩
    have hone := honce (createResolvconf.take 2) ⟨.openFile (ascii "/etc/resolv.conf") CREATED 0, 3⟩
      [⟨.chmod (ascii "/etc/resolv.conf") 0o644, (-1 : Int32)⟩] 3 rfl rfl
    exact absurd hone (by decide)

end ElfLoader.Etc
