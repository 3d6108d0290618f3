import ElfLoader.EtcText
import ElfLoader.Pool

/-!
# Files on a disk

The calls of `conffile.c` on a disk that has a node under each path.  A generator opens its
file, and what it then appends through the descriptor is what the file has when it is closed.
-/

namespace ElfLoader.Etc

open ElfLoader Outcome Prog Conffile

/-! ### A disk -/

structure Node where
  kind : UInt32
  perm : UInt32
  contents : Bytes

/-- What is under each path, and what the descriptors refer to.  Different paths name
    different nodes. -/
structure Disk where
  mem : World
  files : Bytes → Option Node
  fds : Int32 → Option Bytes

def Disk.put (d : Disk) (path : Bytes) (node : Node) : Disk :=
  { d with files := Function.update d.files path (some node) }

/-- What `open` makes of a node that may be there. -/
def openedNode (flags mode : UInt32) : Option Node → Node
  | none => ⟨S_IFREG, mode, []⟩
  | some node => if flags &&& O_TRUNC ≠ 0 then { node with contents := [] } else node

/-- The calls on a disk, each of which may fail.  Neither `open` without `O_EXCL` nor `chmod`
    fails with `EEXIST`. -/
def diskStep : Handler Posix Disk
  | d, .stat path, (rc, mode), d' =>
      (rc < 0 ∨ rc = 0 ∧ ∃ node, d.files path = some node ∧ mode = node.kind ||| node.perm) ∧
        d' = d
  | d, .mkdir path mode, rc, d' =>
      (rc < 0 ∧ d' = d) ∨ (¬ rc < 0 ∧ d.files path = none ∧ d' = d.put path ⟨S_IFDIR, mode, []⟩)
  | d, .openFile path flags mode, fd, d' =>
      (fd < 0 ∧ fd ≠ -EEXIST ∧ d' = d) ∨
        (¬ fd < 0 ∧ d.fds fd = none ∧
          d' = { d.put path (openedNode flags mode (d.files path)) with
            fds := Function.update d.fds fd (some path) })
  | d, .chmod path mode, rc, d' =>
      (rc < 0 ∧ rc ≠ -EEXIST ∧ d' = d) ∨
        (¬ rc < 0 ∧ ∃ node, d.files path = some node ∧ d' = d.put path { node with perm := mode })
  | d, .write fd buf len, rc, d' =>
      (-4096 < rc.toInt ∧ rc < 0 ∧ d' = d) ∨
        (¬ rc < 0 ∧ rc.toInt ≤ len.toNat ∧ ∃ path node, d.fds fd = some path ∧
          d.files path = some node ∧
          d' = d.put path
            { node with contents := node.contents ++ d.mem.read buf rc.toNatClampNeg })
  | d, .close fd, _, d' => d' = { d with fds := Function.update d.fds fd none }
  | d, op, r, d' => ∃ w, posix d.mem op r w ∧ d' = { d with mem := w }

/-! ### Printing on a disk -/

/-- While `path` is open as `fd`, its contents are what was appended through `fd`, and
    nothing else on the disk changes. -/
structure Shown (fd : Int32) (path : Bytes) (node : Node) (d₀ : Disk) (w : World) (d : Disk) :
    Prop where
  opened : d₀.fds fd = some path
  fds : d.fds = d₀.fds
  files : d.files = Function.update d₀.files path (some { node with contents := w.file fd })
  buf : w.buf = d.mem.buf
  ip4buf : w.ip4buf = d.mem.ip4buf
  beyond : w.beyond = d.mem.beyond

section Shown

variable {fd : Int32} {path : Bytes} {node : Node} {d₀ d d' : Disk} {w : World}

theorem Shown.mem_eq (h : Shown fd path node d₀ w d) (o : Object) : w.mem o = d.mem.mem o := by
  cases o with
  | text s =>
    simp only [World.mem]
    rw [h.beyond]
  | buf => exact h.buf
  | ip4buf => exact h.ip4buf

theorem Shown.read_eq (h : Shown fd path node d₀ w d) (p : Ptr) (n : Nat) :
    w.read p n = d.mem.read p n := by
  rw [World.read, World.read, h.mem_eq]

theorem Shown.stored (h : Shown fd path node d₀ w d) (p : Ptr) (data : Bytes) :
    Shown fd path node d₀ (w.stored p data) { d with mem := d.mem.stored p data } := by
  rcases p with ⟨object, off⟩
  refine ⟨h.opened, h.fds, ?_, ?_, ?_, ?_⟩
  · rw [World.file_stored]
    exact h.files
  · cases object with
    | buf => exact congrArg (poke · off data) h.buf
    | _ => exact h.buf
  · cases object with
    | ip4buf => exact congrArg (poke · off data) h.ip4buf
    | _ => exact h.ip4buf
  · cases object <;> exact h.beyond

/-- **One call of what is printed** does on the disk what it does to the file alone. -/
theorem Shown.step (h : Shown fd path node d₀ w d) {op : PosixOp} {r : op.Res}
    (hop : Printing fd op) (hstep : diskStep d op r d') :
    ∃ w', posix w op r w' ∧ Shown fd path node d₀ w' d' := by
  cases op with
  | write fd' buf len =>
    have hfd : fd' = fd := hop
    subst hfd
    rcases hstep with ⟨hlow, hneg, rfl⟩ | ⟨hneg, hle, path', node', hopen, hnode, rfl⟩
    · have hzero : (r : Int64).toNatClampNeg = 0 :=
        Int.toNat_of_nonpos (le_of_lt (Int64.lt_iff_toInt_lt.mp hneg))
      have hle : (r : Int64).toInt ≤ len.toNat := by
        have hint : (r : Int64).toInt < 0 := Int64.lt_iff_toInt_lt.mp hneg
        omega
      refine ⟨w, ⟨hlow, hle, ?_⟩, h⟩
      rw [hzero]
      exact World.appended_nil.symm
    · have hpath : path' = path := by
        rw [h.fds, h.opened] at hopen
        exact (Option.some.inj hopen).symm
      subst hpath
      rw [h.files, Function.update_self] at hnode
      cases hnode
      have hlow : -4096 < (r : Int64).toInt := by
        have hint : 0 ≤ (r : Int64).toInt := Int64.le_iff_toInt_le.mp (Int64.not_lt.mp hneg)
        omega
      refine ⟨_, ⟨hlow, hle, rfl⟩, h.opened, h.fds, ?_, h.buf, h.ip4buf, h.beyond⟩
      rw [h.read_eq, World.file_appended]
      simp only [Disk.put]
      rw [h.files, Function.update_idem]
  | vsnprintf buf size text =>
    rcases hstep with ⟨w', hprint, rfl⟩
    rcases hprint with ⟨hneg, data, hlen, rfl⟩ | ⟨hlen, rfl⟩
    · exact ⟨_, Or.inl ⟨hneg, data, hlen, rfl⟩, h.stored buf data⟩
    · exact ⟨_, Or.inr ⟨hlen, rfl⟩, h.stored buf _⟩
  | store p c =>
    rcases hstep with ⟨w', hstore, rfl⟩
    have hw' : w' = d.mem.stored p [c] := hstore
    subst hw'
    exact ⟨_, rfl, h.stored p [c]⟩
  | cstr p =>
    rcases hstep with ⟨w', ⟨hshows, rfl⟩, rfl⟩
    rw [← h.mem_eq] at hshows
    exact ⟨w, ⟨hshows, rfl⟩, h⟩
  | stat path => exact hop.elim
  | mkdir path mode => exact hop.elim
  | openFile path flags mode => exact hop.elim
  | chmod path mode => exact hop.elim
  | close fd' => exact hop.elim

end Shown

/-! ### The files -/

/-- All calls are allowed, and only what is returned matters. -/
abbrev Leaves {α : Type} (d : Disk) (p : CProg α) (P : Disk → α → Prop) : Prop :=
  wp diskStep (fun _ _ => True) p (post P (fun _ _ => True) True) d

/-- The file is empty and open as `fd`. -/
structure Created (fpath : Bytes) (fmode : UInt32) (fd : Int32) (d d' : Disk) : Prop where
  fresh : d.fds fd = none
  fds : d'.fds = Function.update d.fds fd (some fpath)
  files : ∃ kind, d'.files = Function.update d.files fpath (some ⟨kind, fmode, []⟩)

/-- What has become of a file that is generated if `on`: it has the text, or with
    `SKIPEXIST` what it had before. -/
structure FileWritten (on : Prop) (c : Config) (fpath : Bytes) (fmode : UInt32) (text : Bytes)
    (d d' : Disk) : Prop where
  fds : d'.fds = d.fds
  others : ∀ path, (on → path ≠ fpath) → d'.files path = d.files path
  file : on → (∃ kind, d'.files fpath = some ⟨kind, fmode, text⟩) ∨
    (c.exist = .skip ∧ d.files fpath ≠ none ∧ d'.files fpath = d.files fpath)

section Files

variable {c : Config} {fpath : Bytes} {fmode : UInt32} {text : Bytes} {d : Disk} {on : Prop}

/-- A failed creation is told from a file that was there. -/
def CreateResult (fpath : Bytes) (fmode : UInt32) (d d' : Disk) (fd : Int32) : Prop :=
  (¬ fd < 0 → Created fpath fmode fd d d') ∧ (fd = -EEXIST → d.files fpath ≠ none ∧ d' = d)

theorem leaves_cfOpen : Leaves d (cfOpen fpath fmode) (CreateResult fpath fmode d) := by
  apply wp_get_bind.mpr
  refine ⟨trivial, ?_⟩
  rintro fd d₁ (⟨hneg, hne, -⟩ | ⟨hnonneg, hfresh, rfl⟩)
  · rw [if_pos hneg]
    exact ⟨fun h => absurd hneg h, fun h => absurd h hne⟩
  · rw [if_neg hnonneg]
    apply wp_get_bind.mpr
    refine ⟨trivial, ?_⟩
    rintro rc d₂ (⟨hneg, hne, -⟩ | ⟨hrc, node, hnode, rfl⟩)
    · rw [if_pos hneg]
      exact ⟨fun h => absurd hneg h, fun h => absurd h hne⟩
    · rw [if_neg hrc]
      have hopened : node = openedNode (O_CREAT ||| O_WRONLY ||| O_TRUNC) 0 (d.files fpath) := by
        have hself : Function.update d.files fpath _ fpath = some node := hnode
        rw [Function.update_self] at hself
        exact (Option.some.inj hself).symm
      have hempty : node.contents = [] := by
        rw [hopened]
        unfold openedNode
        split
        · rfl
        · rfl
      refine ⟨fun _ => ⟨hfresh, rfl, node.kind, ?_⟩, ?_⟩
      · simp only [Disk.put]
        rw [Function.update_idem, hempty]
      · intro hexist
        have hneg : (-EEXIST : Int32) < 0 := by decide
        rw [hexist] at hnonneg
        exact absurd hneg hnonneg

theorem leaves_cfCreate (exist : OnExist) :
    Leaves d (cfCreate exist fpath fmode) (CreateResult fpath fmode d) := by
  apply wp_get_bind.mpr
  refine ⟨trivial, ?_⟩
  rintro ⟨rc, mode⟩ d₁ ⟨hstat, hd₁⟩
  subst d₁
  dsimp only
  split
  · rename_i hrc
    have hthere : d.files fpath ≠ none := by
      rcases hstat with hneg | ⟨-, node, hnode, -⟩
      · rw [hrc] at hneg
        exact absurd hneg Int32.lt_irrefl
      · rw [hnode]
        exact Option.some_ne_none node
    cases exist with
    | error => exact ⟨fun h => absurd (by decide) h, fun _ => ⟨hthere, rfl⟩⟩
    | skip => exact ⟨fun h => absurd (by decide) h, fun _ => ⟨hthere, rfl⟩⟩
    | replace =>
      dsimp only
      split
      · exact ⟨fun h => absurd (by decide) h, fun h => absurd h (by decide)⟩
      · exact leaves_cfOpen
  · exact leaves_cfOpen

/-- What is appended through the descriptor is what the file has in the end. -/
theorem leaves_withFile (hon : on) {body : Int32 → CProg Int32}
    (hbody : ∀ fd, Adds fd (body fd) text) :
    Leaves d (withFile c fpath fmode body) fun d' rc =>
      ¬ rc < 0 → FileWritten on c fpath fmode text d d' := by
  apply wp_bind_post (leaves_cfCreate c.exist)
  rintro d₁ fd ⟨hcreated, hexist⟩
  split
  · rename_i hskip
    rcases hexist hskip.2 with ⟨hthere, rfl⟩
    exact fun _ => ⟨rfl, fun _ _ => rfl, fun _ => Or.inr ⟨hskip.1, hthere, rfl⟩⟩
  · split
    · rename_i hneg
      exact fun h => absurd hneg h
    · rename_i hnonneg
      rcases hcreated hnonneg with ⟨hfresh, hfds, kind, hfiles⟩
      have hshown : Shown fd fpath ⟨kind, fmode, []⟩ d₁
          { d₁.mem with file := fun _ => [] } d₁ := by
        refine ⟨?_, rfl, ?_, rfl, rfl, rfl⟩
        · rw [hfds, Function.update_self]
        · rw [hfiles, Function.update_idem]
      have hany : wp diskStep (fun _ _ => True) (body fd) (fun _ _ => True) d₁ :=
        wp_of_reaches (fun _ _ _ _ _ => trivial) fun _ _ _ _ => trivial
      have hprint := wp_ghost (fun _ _ _ _ _ h hop _ hstep => h.step hop hstep) hshown
        (hbody fd _) hany
      apply wp_bind.mpr
      apply wp_pre_mono (wp_mono hprint ?_) fun _ _ _ => trivial
      rintro d₂ (rc | e | -) ⟨-, w, hshown₂, hadded⟩
      · refine ⟨trivial, ?_⟩
        rintro _ _ rfl hrc
        have hcontents : w.file fd = text := hadded hrc
        refine ⟨?_, ?_, fun _ => Or.inl ⟨kind, ?_⟩⟩
        · simp only
          rw [hshown₂.fds, hfds, Function.update_idem, ← hfresh, Function.update_eq_self]
        · intro path hne
          rw [hshown₂.files, hfiles, Function.update_idem, Function.update_of_ne (hne hon)]
        · rw [hshown₂.files, Function.update_self, hcontents]
      · trivial
      · trivial

theorem Leaves.orOut {p rest : CProg Int32} {P Q : Disk → Prop}
    (hp : Leaves d p fun d₁ rc => ¬ rc < 0 → P d₁)
    (hrest : ∀ d₁, P d₁ → Leaves d₁ rest fun d' rc => ¬ rc < 0 → Q d') :
    Leaves d (orOut p rest) fun d' rc => ¬ rc < 0 → Q d' := by
  apply wp_bind_post hp
  intro d₁ rc hrc
  split
  · rename_i hneg
    exact fun hnot => absurd hneg hnot
  · rename_i hnonneg
    exact hrest d₁ (hrc hnonneg)

theorem leaves_cfMkdir {dpath : Bytes} {dmode : UInt32} :
    Leaves d (cfMkdir dpath dmode) fun d' rc => ¬ rc < 0 →
      d'.fds = d.fds ∧ (∀ path, path ≠ dpath → d'.files path = d.files path) ∧
        ∃ node, d'.files dpath = some node ∧
          (d.files dpath = some node ∨ d.files dpath = none ∧ node = ⟨S_IFDIR, dmode, []⟩) := by
  apply wp_get_bind.mpr
  refine ⟨trivial, ?_⟩
  rintro ⟨rc, mode⟩ d₁ ⟨hstat, hd₁⟩
  subst d₁
  dsimp only
  split
  · exact fun h => absurd (by decide) h
  · split
    · rename_i hrc
      rcases hstat with hneg | ⟨-, node, hnode, -⟩
      · rw [hrc] at hneg
        exact absurd hneg Int32.lt_irrefl
      · exact fun _ => ⟨rfl, fun _ _ => rfl, node, hnode, Or.inl hnode⟩
    · rename_i hrc
      split
      · rcases hstat with hneg | ⟨hzero, -⟩
        · exact fun h => absurd hneg h
        · exact absurd hzero hrc
      · apply wp_get_bind.mpr
        refine ⟨trivial, ?_⟩
        rintro rc' d₂ (⟨hneg, -⟩ | ⟨hnonneg, hnone, rfl⟩)
        · rw [if_pos hneg]
          exact fun h => absurd hneg h
        · rw [if_neg hnonneg]
          intro _
          refine ⟨rfl, ?_, _, Function.update_self .., Or.inr ⟨hnone, rfl⟩⟩
          exact fun path hne => Function.update_of_ne hne ..

theorem fileWritten_off (hoff : ¬ on) : FileWritten on c fpath fmode text d d :=
  ⟨rfl, fun _ _ => rfl, fun h => absurd h hoff⟩

end Files

/-! ### A machine with a disk -/

/-- The answers of a machine with one descriptor that writes everything at once. -/
def diskExec (d : Disk) : (op : PosixOp) → Option (op.Res × Disk)
  | .stat path =>
      match d.files path with
      | none => some ((-ENOENT, 0), d)
      | some node => some ((0, node.kind ||| node.perm), d)
  | .mkdir path mode =>
      match d.files path with
      | none => some ((0 : Int32), d.put path ⟨S_IFDIR, mode, []⟩)
      | some _ => none
  | .openFile path flags mode =>
      match d.fds 3 with
      | none =>
          some ((3 : Int32), { d.put path (openedNode flags mode (d.files path)) with
            fds := Function.update d.fds 3 (some path) })
      | some _ => none
  | .chmod path mode =>
      match d.files path with
      | none => none
      | some node => some ((0 : Int32), d.put path { node with perm := mode })
  | .write fd buf len =>
      match d.fds fd with
      | none => none
      | some path =>
          match d.files path with
          | none => none
          | some node =>
              if len.toNat < 2 ^ 63 then
                some (Int64.ofNat len.toNat, d.put path
                  { node with contents := node.contents ++ d.mem.read buf len.toNat })
              else none
  | .close fd => some ((0 : Int32), { d with fds := Function.update d.fds fd none })
  | .vsnprintf buf size text =>
      if text.length < 2 ^ 31 then
        some (Int32.ofNat text.length,
          { d with mem := d.mem.stored buf (formatted size.toNat text) })
      else none
  | .store p c => some ((), { d with mem := d.mem.stored p [c] })
  | .cstr p => (cstrAt (d.mem.mem p.object) 64 p.off).map fun s => (s, d)

theorem shows_of_cstrAt {m : Memory} {fuel a : Nat} {s : Bytes} (h : cstrAt m fuel a = some s) :
    Shows m a (s ++ [0]) ∧ 0 ∉ s := by
  induction fuel generalizing a s with
  | zero => cases h
  | succ fuel ih =>
    rw [cstrAt] at h
    split at h
    · rename_i hzero
      cases h
      exact ⟨shows_cons.mpr ⟨hzero, shows_nil⟩, List.not_mem_nil⟩
    · rename_i hne
      rcases Option.map_eq_some_iff.mp h with ⟨t, ht, rfl⟩
      rcases ih ht with ⟨hshows, hnul⟩
      refine ⟨shows_cons.mpr ⟨rfl, hshows⟩, ?_⟩
      rw [List.mem_cons, not_or]
      exact ⟨fun hzero => hne hzero.symm, hnul⟩

theorem diskExec_ok {d d' : Disk} {op : PosixOp} {r : op.Res}
    (h : diskExec d op = some (r, d')) : diskStep d op r d' := by
  have hzero : ¬ (0 : Int32) < 0 := by decide
  have hthree : ¬ (3 : Int32) < 0 := by decide
  cases op with
  | stat path =>
    simp only [diskExec] at h
    split at h
    · cases h
      exact ⟨Or.inl (by decide), rfl⟩
    · rename_i node hnode
      cases h
      exact ⟨Or.inr ⟨rfl, node, hnode, rfl⟩, rfl⟩
  | mkdir path mode =>
    simp only [diskExec] at h
    split at h
    · rename_i hnone
      cases h
      exact Or.inr ⟨hzero, hnone, rfl⟩
    · cases h
  | openFile path flags mode =>
    simp only [diskExec] at h
    split at h
    · rename_i hfresh
      cases h
      exact Or.inr ⟨hthree, hfresh, rfl⟩
    · cases h
  | chmod path mode =>
    simp only [diskExec] at h
    split at h
    · cases h
    · rename_i node hnode
      cases h
      exact Or.inr ⟨hzero, node, hnode, rfl⟩
  | write fd buf len =>
    simp only [diskExec] at h
    split at h
    · cases h
    rename_i path hopen
    split at h
    · cases h
    rename_i node hnode
    split at h
    · rename_i hlt
      cases h
      have hint : (Int64.ofNat len.toNat).toInt = len.toNat := Int64.toInt_ofNat_of_lt hlt
      have hclamp : (Int64.ofNat len.toNat).toNatClampNeg = len.toNat := by
        rw [Int64.toNatClampNeg, hint, Int.toNat_natCast]
      refine Or.inr ⟨?_, le_of_eq hint, path, node, hopen, hnode, ?_⟩
      · rw [Int64.lt_iff_toInt_lt, hint]
        exact Int.not_lt.mpr (Int.natCast_nonneg _)
      · rw [hclamp]
    · cases h
  | close fd =>
    cases h
    rfl
  | vsnprintf buf size text =>
    simp only [diskExec] at h
    split at h
    · rename_i hlt
      cases h
      exact ⟨_, Or.inr ⟨Int32.toInt_ofNat_of_lt hlt, rfl⟩, rfl⟩
    · cases h
  | store p c =>
    cases h
    exact ⟨_, rfl, rfl⟩
  | cstr p =>
    rcases Option.map_eq_some_iff.mp h with ⟨s, hs, heq⟩
    cases heq
    exact ⟨d.mem, ⟨shows_of_cstrAt hs, rfl⟩, rfl⟩

end ElfLoader.Etc
