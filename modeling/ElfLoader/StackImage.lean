import ElfLoader.Auxv
import ElfLoader.Memory
import ElfLoader.Rounding

/-!
# What the initial stack shows

`stackStep` lets the writes of `build_stack` act on a memory.  A successful run
leaves one blob below the other (`Built`); `readStack` reads such a memory the way
the start-up code of a libc does, and finds what was put in.
-/

namespace ElfLoader.Auxv

open ElfLoader Outcome Prog

/-- What the calls do to the memory of the stack: a write that succeeds is done. -/
def stackStep : Handler Host Memory := fun m op r m' =>
  match op, r with
  | .stackWrite a data, (.ok _ : Except Error Unit) => m' = poke m a data
  | _, _ => m' = m

/-- Nothing is written outside of the range. -/
def InStack (r : StackRange) (_ : Memory) : HostOp → Prop
  | .stackWrite a data => r.bottom ≤ a ∧ a + data.length ≤ r.top
  | _ => True

theorem alignDown_eq {v : Nat} (hv : v < 2 ^ 64) : alignDown v SP_ALIGN = roundDown SP_ALIGN v :=
  and_mask_eq_roundDown (k := 4) (by decide) hv

/-- Strings one behind the other, each with its terminating zero. -/
def cstrs (ss : List Bytes) : Bytes := ss.flatMap (· ++ [0])

/-- Where each of the strings of `cstrs` begins. -/
def addrs (a : Nat) : List Bytes → List Nat
  | [] => []
  | s :: ss => a :: addrs (a + (s.length + 1)) ss

def words (vs : List Nat) : Bytes := vs.flatMap (toLe 8)

@[simp] theorem cstrs_nil : cstrs [] = [] := rfl

@[simp] theorem cstrs_cons (s : Bytes) (ss : List Bytes) :
    cstrs (s :: ss) = (s ++ [0]) ++ cstrs ss := rfl

theorem cstrs_append (ss ts : List Bytes) : cstrs (ss ++ ts) = cstrs ss ++ cstrs ts :=
  List.flatMap_append

theorem addrs_append (a : Nat) (ss ts : List Bytes) :
    addrs a (ss ++ ts) = addrs a ss ++ addrs (a + (cstrs ss).length) ts := by
  induction ss generalizing a with
  | nil => rfl
  | cons s ss ih => simp [addrs, ih, Nat.add_assoc, Nat.add_comm 1]

@[simp] theorem length_addrs (a : Nat) (ss : List Bytes) : (addrs a ss).length = ss.length := by
  induction ss generalizing a with
  | nil => rfl
  | cons s ss ih => simp [addrs, ih]

@[simp] theorem words_cons (v : Nat) (vs : List Nat) : words (v :: vs) = toLe 8 v ++ words vs := rfl

@[simp] theorem length_words (vs : List Nat) : (words vs).length = 8 * vs.length := by
  induction vs with
  | nil => rfl
  | cons v vs ih => simp [ih]; omega

/-- The platform string takes no place when there is none. -/
def platformBlob (platform : Bytes) : Bytes := if platform.isEmpty then [] else platform ++ [0]

/-! ### What each step of the layout writes -/

section Steps

variable {r : StackRange} {m : Memory} {sp : Nat} {X : Prop}

theorem wp_stackWrite {a : Nat} {data : Bytes} (hbot : r.bottom ≤ a)
    (htop : a + data.length ≤ r.top) :
    wp stackStep (InStack r) (stackWrite a data)
      (post (fun m' _ => m' = poke m a data) (fun _ _ => True) X) m := by
  refine ⟨⟨hbot, htop⟩, ?_⟩
  intro res m' hm'
  cases res with
  | ok u => exact hm'
  | error e => trivial

theorem wp_pushBytes {data : Bytes} (hsp : sp ≤ r.top) :
    wp stackStep (InStack r) (pushBytes r sp data)
      (post (fun m' a => r.bottom ≤ a ∧ a + data.length = sp ∧ m' = poke m a data)
        (fun _ _ => True) X) m := by
  refine wp_lift_bind ?_ (fun _ _ => trivial) (fun h => absurd h okOr_ne_panic)
  intro a ha
  rw [okOr_eq_ok, U64.checkedSub_eq_some] at ha
  refine wp_lift_bind ?_ (fun _ _ => trivial) (fun h => absurd h guardErr_ne_panic)
  intro _ hbot
  rw [guardErr_eq_ok] at hbot
  refine wp_bind_post (wp_stackWrite (by omega) (by omega)) ?_
  intro m' _ hm'
  exact ⟨by omega, by omega, hm'⟩

theorem wp_pushCstr {s : Bytes} (hsp : sp ≤ r.top) :
    wp stackStep (InStack r) (pushCstr r sp s)
      (post (fun m' a => r.bottom ≤ a ∧ a + (s.length + 1) = sp ∧ m' = poke m a (s ++ [0]))
        (fun _ _ => True) X) m := by
  refine wp_bind_post (wp_pushBytes hsp) ?_
  rintro m₁ b ⟨hbot, hb, rfl⟩
  rw [List.length_singleton] at hb
  split
  · rename_i hs
    rw [List.isEmpty_iff] at hs
    subst hs
    exact ⟨hbot, hb, rfl⟩
  · refine wp_post_mono (wp_pushBytes (by omega)) ?_ (fun _ _ h => h)
    rintro m' a ⟨hbot', ha, rfl⟩
    refine ⟨hbot', by omega, ?_⟩
    rw [← ha, poke_poke_before]

theorem wp_pushEach {ats : List Nat} {ss : List Bytes} (hbot : r.bottom ≤ sp) (hsp : sp ≤ r.top) :
    wp stackStep (InStack r) (pushEach r sp ats ss)
      (post (fun m' q => r.bottom ≤ q.1 ∧ q.1 + (cstrs ss.reverse).length = sp ∧
          q.2 = ats ++ (addrs q.1 ss.reverse).reverse ∧ m' = poke m q.1 (cstrs ss.reverse))
        (fun _ _ => True) X) m := by
  induction ss generalizing m sp ats with
  | nil => exact ⟨hbot, rfl, by simp [addrs], poke_nil.symm⟩
  | cons s ss ih =>
    refine wp_bind_post (wp_pushCstr hsp) ?_
    rintro m₁ a ⟨hbot₁, ha, rfl⟩
    refine wp_post_mono (ih hbot₁ (by omega)) ?_ (fun _ _ h => h)
    rintro m' ⟨b, ats'⟩ ⟨hbot', hb, hats, rfl⟩
    dsimp only at hbot' hb hats ⊢
    refine ⟨hbot', ?_, ?_, ?_⟩
    · simp only [List.reverse_cons, cstrs_append, List.length_append, cstrs_cons, cstrs_nil,
        List.length_nil, List.length_singleton]
      omega
    · rw [List.reverse_cons, addrs_append, hb, hats]
      simp [addrs]
    · rw [List.reverse_cons, cstrs_append, ← hb, poke_poke_before, cstrs_cons, cstrs_nil,
        List.append_nil]

theorem wp_pushStrings {ss : List Bytes} (hbot : r.bottom ≤ sp) (hsp : sp ≤ r.top) :
    wp stackStep (InStack r) (pushStrings r sp ss)
      (post (fun m' q => r.bottom ≤ q.1 ∧ q.1 + (cstrs ss).length = sp ∧
          q.2 = addrs q.1 ss ∧ m' = poke m q.1 (cstrs ss))
        (fun _ _ => True) X) m := by
  refine wp_bind.mpr ⟨trivial, ?_⟩
  rintro (_ | _) m₁ rfl
  · trivial
  · refine wp_bind_post (wp_pushEach hbot hsp) ?_
    rintro m' ⟨b, ats⟩ ⟨hbot', hb, hats, rfl⟩
    simp only [List.reverse_reverse, List.nil_append] at hb hats
    exact ⟨hbot', hb, by simp [hats], by simp⟩

theorem writeWords_append (a : Nat) (vs ws : List Nat) :
    writeWords a (vs ++ ws) = writeWords a vs >>= fun b => writeWords b ws := by
  induction vs generalizing a with
  | nil => rfl
  | cons v vs ih => simp only [List.cons_append, writeWords, ih, bind_assoc]

theorem wp_writeWords {a : Nat} {vs : List Nat} (hbot : r.bottom ≤ a)
    (htop : a + (words vs).length ≤ r.top) :
    wp stackStep (InStack r) (writeWords a vs)
      (post (fun m' _ => m' = poke m a (words vs)) (fun _ _ => True) X) m := by
  induction vs generalizing m a with
  | nil => exact poke_nil.symm
  | cons v vs ih =>
    rw [length_words, List.length_cons] at htop
    have hlt := r.top_lt
    refine wp_bind_post (wp_stackWrite hbot (by rw [length_toLe]; omega)) ?_
    rintro m₁ _ rfl
    rw [U64.add_of_lt (by omega), lift_ok_bind]
    refine wp_post_mono (ih (by omega) (by rw [length_words]; omega)) ?_ (fun _ _ h => h)
    rintro m' _ rfl
    rw [words_cons, ← poke_poke_behind, length_toLe]

theorem wp_pushPlatform {platform : Bytes} (hsp : sp ≤ r.top) :
    wp stackStep (InStack r) (pushPlatform r sp platform)
      (post (fun m' q => q.1 + (platformBlob platform).length = sp ∧
          q.2 = (if platform.isEmpty then none else some q.1) ∧
          m' = poke m q.1 (platformBlob platform))
        (fun _ _ => True) X) m := by
  unfold pushPlatform platformBlob
  split
  · exact ⟨rfl, rfl, poke_nil.symm⟩
  · refine wp_bind_post (wp_pushCstr hsp) ?_
    rintro m' a ⟨-, ha, rfl⟩
    exact ⟨by simpa using ha, rfl, rfl⟩

end Steps

/-! ### The whole layout -/

/-- Where a layout has put its parts. -/
structure Places where
  platform : Nat
  execfn : Nat
  random : Nat
  envp : Nat
  argv : Nat

namespace Places

variable (q : Places) (argv envp : List Bytes) (aux : AuxvSpec)

def pairs : List (Nat × Nat) :=
  auxPairs aux q.random (if aux.platform.isEmpty then none else some q.platform) (some q.execfn)

def block : List Nat :=
  argv.length :: (addrs q.argv argv ++ 0 :: (addrs q.envp envp ++ 0 ::
    (q.pairs aux ++ [(AT_NULL, 0)]).flatMap fun e : Nat × Nat => [e.1, e.2]))

theorem length_block :
    (q.block argv envp aux).length =
      (1 + argv.length + 1 + envp.length + 1) + (q.pairs aux ++ [(AT_NULL, 0)]).length * 2 := by
  simp [block, List.length_flatMap]
  omega

end Places

/-- What a layout that has succeeded leaves: its parts one below the other, each
    written once. -/
structure Built (r : StackRange) (argv envp : List Bytes) (aux : AuxvSpec) (m : Memory)
    (l : StackLayout) (q : Places) (m' : Memory) : Prop where
  platform_eq : q.platform + (platformBlob aux.platform).length = roundDown SP_ALIGN r.top
  execfn_eq : q.execfn + (aux.execfn.length + 1) = q.platform
  random_eq : q.random + 16 = roundDown SP_ALIGN q.execfn
  envp_eq : q.envp + (cstrs envp).length = q.random
  argv_eq : q.argv + (cstrs argv).length = q.envp
  sp_eq : l.sp = roundDown SP_ALIGN (q.argv - (words (q.block argv envp aux)).length)
  fits : (words (q.block argv envp aux)).length ≤ q.argv
  bottom_le : r.bottom ≤ l.sp
  layout : l.argcAt = l.sp ∧ l.lowWater = l.sp
  mem_eq : m' = poke (poke (poke (poke (poke (poke m q.platform (platformBlob aux.platform))
    q.execfn (aux.execfn ++ [0])) q.random aux.random.val) q.envp (cstrs envp)) q.argv (cstrs argv))
    l.sp (words (q.block argv envp aux))

theorem blockSize_eq_ok {argc envc auxc n : Nat} (h : blockSize argc envc auxc = ok n) :
    n = (1 + argc + 1 + envc + 1) * 8 + auxc * 16 := by
  simp only [blockSize, bind_eq_ok, U64.add_eq_ok, U64.mul_eq_ok] at h
  omega

theorem wp_buildStack {r : StackRange} {argv envp : List Bytes} {aux : AuxvSpec} {m : Memory} :
    wp stackStep (InStack r) (buildStack r argv envp aux)
      (post (fun m' l => ∃ q, Built r argv envp aux m l q m') (fun _ _ => True) True) m := by
  have hlt := r.top_lt
  have htop := roundDown_le SP_ALIGN r.top
  unfold buildStack
  refine wp_lift_bind (fun size _ => ?_) (fun _ _ => trivial) (fun _ => trivial)
  refine wp_lift_bind (fun len _ => ?_) (fun _ _ => trivial) (fun _ => trivial)
  rw [alignDown_eq hlt]
  refine wp_bind_post (wp_pushPlatform htop) ?_
  rintro m₁ ⟨platform, platformAt⟩ ⟨hplatform, hat, rfl⟩
  dsimp only at hplatform hat ⊢
  refine wp_bind_post (wp_pushCstr (by omega)) ?_
  rintro m₁ execfn ⟨-, hexecfn, rfl⟩
  have hdown := roundDown_le SP_ALIGN execfn
  rw [alignDown_eq (by omega)]
  refine wp_bind_post (wp_pushBytes (by omega)) ?_
  rintro m₁ random ⟨hbot, hrandom, rfl⟩
  rw [aux.random.property] at hrandom
  refine wp_bind_post (wp_pushStrings hbot (by omega)) ?_
  rintro m₁ ⟨envpAt, ats⟩ ⟨hbot, henvp, hats, rfl⟩
  dsimp only at hbot henvp hats ⊢
  subst hats
  refine wp_bind_post (wp_pushStrings hbot (by omega)) ?_
  rintro m₁ ⟨argvAt, ats⟩ ⟨-, hargv, hats, rfl⟩
  dsimp only at hargv hats ⊢
  subst hats
  -- the block that was sized in advance is the block that is written
  let q : Places := ⟨platform, execfn, random, envpAt, argvAt⟩
  have hpairs : auxPairs aux random platformAt (some execfn) = q.pairs aux := by rw [hat]; rfl
  rw [hpairs]
  refine wp_lift_bind ?_ (fun _ _ => trivial) (fun _ => trivial)
  intro block hblock
  have hsize : block = (words (q.block argv envp aux)).length := by
    rw [blockSize_eq_ok hblock, length_words, q.length_block]
    omega
  refine wp_lift_bind ?_ (fun _ _ => trivial) (fun _ => trivial)
  intro low hlow
  rw [okOr_eq_ok, U64.checkedSub_eq_some] at hlow
  have hsp := roundDown_le SP_ALIGN low
  rw [alignDown_eq (by omega)]
  refine wp_lift_bind ?_ (fun _ _ => trivial) (fun _ => trivial)
  intro _ hbottom
  rw [guardErr_eq_ok] at hbottom
  simp only [← bind_assoc, ← writeWords_append, List.cons_append, List.nil_append]
  have hend : roundDown SP_ALIGN low + (words (q.block argv envp aux)).length ≤ r.top := by omega
  refine wp_bind_post (wp_writeWords (by omega) hend) ?_
  rintro m' _ rfl
  have hfits : (words (q.block argv envp aux)).length ≤ q.argv := hsize ▸ hlow.1
  exact ⟨q, hplatform, hexecfn, hrandom, henvp, hargv, by rw [← hsize, hlow.2], hfits,
    Nat.le_of_not_lt hbottom, ⟨rfl, rfl⟩, rfl⟩

/-! ### Reading it back -/

/-- What the start-up code finds: the strings with the pointers to them, and the
    pairs before `AT_NULL`. -/
structure Parsed where
  argv : List (Nat × Bytes)
  envp : List (Nat × Bytes)
  auxv : List (Nat × Nat)
deriving DecidableEq, Repr

def Parsed.get (p : Parsed) (key : Nat) : Option Nat :=
  (p.auxv.find? fun e => e.1 == key).map (·.2)

section Reader

variable (m : Memory)

/-- So many pointers and a NULL; also the address behind it. -/
def readArgs (fuel : Nat) : Nat → Nat → Option (List (Nat × Bytes) × Nat)
  | 0, a => if readWord m a = 0 then some ([], a + 8) else none
  | n + 1, a => do
      let s ← cstrAt m fuel (readWord m a)
      let (rest, b) ← readArgs fuel n (a + 8)
      some ((readWord m a, s) :: rest, b)

/-- Pointers up to a NULL; also the address behind it. -/
def readEnv (fuel : Nat) : Nat → Nat → Option (List (Nat × Bytes) × Nat)
  | 0, _ => none
  | n + 1, a =>
      if readWord m a = 0 then some ([], a + 8)
      else do
        let s ← cstrAt m fuel (readWord m a)
        let (rest, b) ← readEnv fuel n (a + 8)
        some ((readWord m a, s) :: rest, b)

def readAux : Nat → Nat → Option (List (Nat × Nat))
  | 0, _ => none
  | n + 1, a =>
      if readWord m a = AT_NULL then some []
      else do
        let rest ← readAux n (a + 16)
        some ((readWord m a, readWord m (a + 8)) :: rest)

/-- Read a stack from its pointer on, as a libc does at start-up. -/
def readStack (fuel sp : Nat) : Option Parsed := do
  let (argv, a) ← readArgs m fuel (readWord m sp) (sp + 8)
  let (envp, a) ← readEnv m fuel fuel a
  let auxv ← readAux m fuel a
  some { argv, envp, auxv }

end Reader

section ReadBack

variable {m : Memory} {a fuel : Nat}

/-- The first word of a block is its own bytes, and the rest stands behind it. -/
theorem shows_words_cons {v : Nat} {vs : List Nat} (h : Shows m a (words (v :: vs))) (hv : v < 2 ^ 64) :
    readWord m a = v ∧ Shows m (a + 8) (words vs) := by
  rw [words_cons, shows_append, length_toLe] at h
  exact ⟨readWord_of_shows h.1 hv, h.2⟩

theorem readArgs_of_shows {ps : List Nat} {ss : List Bytes} {vs : List Nat}
    (h : Shows m a (words (ps ++ 0 :: vs))) (hlt : ∀ p ∈ ps, p < 2 ^ 64)
    (hstr : List.Forall₂ (fun p s => cstrAt m fuel p = some s) ps ss) :
    readArgs m fuel ps.length a = some (ps.zip ss, a + 8 * ps.length + 8) ∧
      Shows m (a + 8 * ps.length + 8) (words vs) := by
  induction hstr generalizing a with
  | nil =>
    obtain ⟨h0, hrest⟩ := shows_words_cons h (by decide)
    exact ⟨by simp [readArgs, h0], hrest⟩
  | @cons p s ps ss hp hps ih =>
    rw [List.forall_mem_cons] at hlt
    obtain ⟨hword, hrest⟩ := shows_words_cons h hlt.1
    obtain ⟨hread, hbehind⟩ := ih hrest hlt.2
    have hlen : a + 8 * (p :: ps).length + 8 = a + 8 + 8 * ps.length + 8 := by
      rw [List.length_cons]
      omega
    rw [hlen]
    exact ⟨by simp [readArgs, hword, hp, hread], hbehind⟩

theorem readEnv_of_shows {n : Nat} {ps : List Nat} {ss : List Bytes} {vs : List Nat}
    (h : Shows m a (words (ps ++ 0 :: vs))) (hlt : ∀ p ∈ ps, p < 2 ^ 64) (hpos : ∀ p ∈ ps, p ≠ 0)
    (hstr : List.Forall₂ (fun p s => cstrAt m fuel p = some s) ps ss) (hn : ps.length < n) :
    readEnv m fuel n a = some (ps.zip ss, a + 8 * ps.length + 8) ∧
      Shows m (a + 8 * ps.length + 8) (words vs) := by
  obtain ⟨n, rfl⟩ : ∃ k, n = k + 1 := ⟨n - 1, by omega⟩
  induction hstr generalizing a n with
  | nil =>
    obtain ⟨h0, hrest⟩ := shows_words_cons h (by decide)
    exact ⟨by simp [readEnv, h0], hrest⟩
  | @cons p s ps ss hp hps ih =>
    rw [List.forall_mem_cons] at hlt hpos
    obtain ⟨n, rfl⟩ : ∃ k, n = k + 1 := ⟨n - 1, by rw [List.length_cons] at hn; omega⟩
    obtain ⟨hword, hrest⟩ := shows_words_cons h hlt.1
    obtain ⟨hread, hbehind⟩ := ih hrest hlt.2 hpos.2 n (by simpa using hn)
    have hlen : a + 8 * (p :: ps).length + 8 = a + 8 + 8 * ps.length + 8 := by
      rw [List.length_cons]
      omega
    rw [hlen]
    exact ⟨by rw [readEnv]; simp [hword, hpos.1, hp, hread], hbehind⟩

theorem readAux_of_shows {n : Nat} {es : List (Nat × Nat)}
    (h : Shows m a (words ((es ++ [(AT_NULL, 0)]).flatMap fun e : Nat × Nat => [e.1, e.2])))
    (hlt : ∀ e ∈ es, e.1 < 2 ^ 64 ∧ e.2 < 2 ^ 64) (hkey : ∀ e ∈ es, e.1 ≠ AT_NULL)
    (hn : es.length < n) : readAux m n a = some es := by
  obtain ⟨n, rfl⟩ : ∃ k, n = k + 1 := ⟨n - 1, by omega⟩
  induction es generalizing a n with
  | nil =>
    obtain ⟨h0, -⟩ := shows_words_cons h (by decide)
    exact if_pos h0
  | cons e es ih =>
    rw [List.forall_mem_cons] at hlt hkey
    obtain ⟨n, rfl⟩ : ∃ k, n = k + 1 := ⟨n - 1, by rw [List.length_cons] at hn; omega⟩
    obtain ⟨hk, hrest⟩ := shows_words_cons h hlt.1.1
    obtain ⟨hv, hrest⟩ := shows_words_cons hrest hlt.1.2
    rw [readAux, hk, if_neg hkey.1, ih hrest hlt.2 hkey.2 n (by simpa using hn), hv]
    rfl

/-- Every string of a row is read back from its address. -/
theorem cstrAt_addrs {ss : List Bytes} (h : Shows m a (cstrs ss)) (h0 : ∀ s ∈ ss, 0 ∉ s)
    (hfuel : (cstrs ss).length ≤ fuel) :
    List.Forall₂ (fun p s => cstrAt m fuel p = some s) (addrs a ss) ss := by
  induction ss generalizing a with
  | nil => exact .nil
  | cons s ss ih =>
    rw [List.forall_mem_cons] at h0
    rw [cstrs_cons, shows_append] at h
    simp only [cstrs_cons, List.length_append, List.length_singleton] at hfuel
    refine .cons (cstrAt_of_shows h.1 h0.1 (by omega)) (ih ?_ h0.2 (by omega))
    simpa using h.2

/-- The addresses of a row of strings lie in the row. -/
theorem mem_addrs {ss : List Bytes} {p : Nat} (hp : p ∈ addrs a ss) :
    a ≤ p ∧ p < a + (cstrs ss).length := by
  induction ss generalizing a with
  | nil => cases hp
  | cons s ss ih =>
    simp only [cstrs_cons, List.length_append, List.length_singleton]
    rcases List.mem_cons.mp hp with rfl | hp
    · omega
    · have := ih hp
      omega

end ReadBack

/-! ### The auxiliary vector -/

/-- What the vector says of each key, in the order of the vector; a key with `none`
    is left out. -/
def AuxvSpec.fields (aux : AuxvSpec) (random : Nat) (platform execfn : Option Nat) :
    List (Nat × Option Nat) :=
  [(AT_PHDR, aux.phdr.map (·.toNat)),
    (AT_PHENT, aux.phdr.map fun _ => aux.phent.toNat),
    (AT_PHNUM, aux.phdr.map fun _ => aux.phnum.toNat),
    (AT_PAGESZ, some aux.pagesz.toNat),
    (AT_BASE, some aux.base.toNat),
    (AT_FLAGS, some 0),
    (AT_ENTRY, some aux.entry.toNat),
    (AT_UID, some aux.uid.toNat),
    (AT_EUID, some aux.uid.toNat),
    (AT_GID, some aux.gid.toNat),
    (AT_EGID, some aux.gid.toNat),
    (AT_SECURE, some aux.secure.toNat),
    (AT_CLKTCK, some aux.clktck.toNat),
    (AT_HWCAP, some aux.hwcap.toNat),
    (AT_HWCAP2, some aux.hwcap2.toNat),
    (AT_RANDOM, some random),
    (AT_PLATFORM, platform),
    (AT_EXECFN, execfn),
    (AT_SYSINFO_EHDR, aux.sysinfoEhdr.map (·.toNat)),
    (AT_MINSIGSTKSZ, aux.minsigstksz.map (·.toNat))]

/-- The pairs of a table: its keys that have a value. -/
def pairsOf (t : List (Nat × Option Nat)) : List (Nat × Nat) :=
  t.flatMap fun f => putSome f.1 f.2

theorem auxPairs_eq (aux : AuxvSpec) (random : Nat) (platform execfn : Option Nat) :
    auxPairs aux random platform execfn = pairsOf (aux.fields random platform execfn) := by
  unfold auxPairs AuxvSpec.fields
  cases aux.phdr <;> simp [pairsOf, putSome]

section Table

variable {t : List (Nat × Option Nat)}

theorem mem_pairsOf {e : Nat × Nat} : e ∈ pairsOf t ↔ (e.1, some e.2) ∈ t := by
  simp only [pairsOf, List.mem_flatMap]
  constructor
  · rintro ⟨⟨k, _ | v⟩, hf, he⟩
    · cases he
    · rw [putSome, List.mem_singleton] at he
      exact he ▸ hf
  · exact fun h => ⟨_, h, by simp [putSome]⟩

theorem keys_pairsOf (t : List (Nat × Option Nat)) :
    ((pairsOf t).map Prod.fst).Sublist (t.map Prod.fst) := by
  induction t with
  | nil => exact .slnil
  | cons f t ih =>
    obtain ⟨k, _ | v⟩ := f
    · exact .cons k ih
    · exact .cons_cons k ih

/-- In a table without a repeated key the pairs give every key its value. -/
theorem get_pairsOf {p : Parsed} (hp : p.auxv = pairsOf t) (hnd : (t.map Prod.fst).Nodup)
    {f : Nat × Option Nat} (hf : f ∈ t) : p.get f.1 = f.2 := by
  rw [Parsed.get, hp]
  clear hp
  induction t with
  | nil => cases hf
  | cons g t ih =>
    obtain ⟨k, o⟩ := g
    rw [List.map_cons, List.nodup_cons] at hnd
    rcases List.mem_cons.mp hf with rfl | hmem
    · cases o with
      | some v => simp [pairsOf, putSome]
      | none =>
        have habsent : (pairsOf t).find? (fun e => e.1 == k) = none := by
          rw [List.find?_eq_none]
          rintro e he hek
          refine hnd.1 ?_
          rw [← beq_iff_eq.mp hek]
          exact (keys_pairsOf t).subset (List.mem_map_of_mem he)
        simpa [pairsOf, putSome] using habsent
    · have hne : f.1 ≠ k := by
        rintro rfl
        exact hnd.1 (List.mem_map.mpr ⟨f, hmem, rfl⟩)
      have hskip : (pairsOf ((k, o) :: t)).find? (fun e => e.1 == f.1) =
          (pairsOf t).find? fun e => e.1 == f.1 := by
        cases o with
        | none => rfl
        | some v => simp [pairsOf, putSome, Ne.symm hne]
      rw [hskip]
      exact ih hnd.2 hmem

end Table

section Fields

variable {aux : AuxvSpec} {random : Nat} {platform execfn : Option Nat}

theorem nodup_fields : ((aux.fields random platform execfn).map Prod.fst).Nodup := by
  simp only [AuxvSpec.fields, List.map_cons, List.map_nil]
  decide

theorem key_fields {f : Nat × Option Nat} (hf : f ∈ aux.fields random platform execfn) :
    f.1 ≠ AT_NULL ∧ f.1 < 2 ^ 64 := by
  have hmem := List.mem_map_of_mem (f := Prod.fst) hf
  simp only [AuxvSpec.fields, List.map_cons, List.map_nil] at hmem
  revert hmem
  generalize f.1 = k
  revert k
  decide

theorem value_fields (hrandom : random < 2 ^ 64) (hplatform : ∀ v ∈ platform, v < 2 ^ 64)
    (hexecfn : ∀ v ∈ execfn, v < 2 ^ 64) {f : Nat × Option Nat}
    (hf : f ∈ aux.fields random platform execfn) : ∀ v ∈ f.2, v < 2 ^ 64 := by
  have hword (o : Option UInt64) (g : UInt64 → UInt64) :
      ∀ v ∈ o.map fun x => (g x).toNat, v < 2 ^ 64 := by
    intro v hv
    obtain ⟨x, -, rfl⟩ := Option.mem_map.mp hv
    exact (g x).toNat_lt
  have hsome {n : Nat} (hn : n < 2 ^ 64) : ∀ v ∈ some n, v < 2 ^ 64 := by
    intro v hv
    rwa [← Option.mem_some_iff.mp hv]
  have hvalue (x : UInt64) : ∀ v ∈ some x.toNat, v < 2 ^ 64 := hsome x.toNat_lt
  have hsecure : aux.secure.toNat < 2 ^ 64 := lt_of_le_of_lt (Bool.toNat_le _) (by decide)
  revert f
  simp only [AuxvSpec.fields, List.forall_mem_cons, List.not_mem_nil, false_implies,
    implies_true, and_true]
  exact ⟨hword _ id, hword _ fun _ => aux.phent, hword _ fun _ => aux.phnum, hvalue _, hvalue _,
    hsome (by decide), hvalue _, hvalue _, hvalue _, hvalue _, hvalue _, hsome hsecure, hvalue _,
    hvalue _, hvalue _, hsome hrandom, hplatform, hexecfn, hword _ id, hword _ id⟩

end Fields

/-! ### The round trip -/

section RoundTrip

variable {r : StackRange} {argv envp : List Bytes} {aux : AuxvSpec} {m m' : Memory}
  {l : StackLayout} {q : Places}

/-- The block lies below the strings. -/
theorem Built.block_le (h : Built r argv envp aux m l q m') :
    l.sp + (words (q.block argv envp aux)).length ≤ q.argv := by
  have hdown := roundDown_le SP_ALIGN (q.argv - (words (q.block argv envp aux)).length)
  have hfits := h.fits
  rw [h.sp_eq]
  omega

/-- The parts follow one another up to the top. -/
theorem Built.order (h : Built r argv envp aux m l q m') :
    q.argv ≤ q.envp ∧ q.envp ≤ q.random ∧ q.random + 16 ≤ q.execfn ∧
      q.execfn + (aux.execfn.length + 1) = q.platform ∧
      q.platform + (platformBlob aux.platform).length ≤ r.top := by
  have htop := roundDown_le SP_ALIGN r.top
  have hdown := roundDown_le SP_ALIGN q.execfn
  have hplatform := h.platform_eq
  have hrandom := h.random_eq
  have henvp := h.envp_eq
  have hargv := h.argv_eq
  exact ⟨by omega, by omega, by omega, h.execfn_eq, by omega⟩

/-- Every part is still there at the end: each is written below the ones before. -/
theorem Built.shows (h : Built r argv envp aux m l q m') :
    Shows m' l.sp (words (q.block argv envp aux)) ∧ Shows m' q.argv (cstrs argv) ∧
      Shows m' q.envp (cstrs envp) ∧ Shows m' q.random aux.random.val ∧
      Shows m' q.execfn (aux.execfn ++ [0]) ∧
      Shows m' q.platform (platformBlob aux.platform) := by
  have hblock := h.block_le
  obtain ⟨-, -, hrandom, hexecfn, -⟩ := h.order
  have hargv := h.argv_eq
  have henvp := h.envp_eq
  have hlen := aux.random.property
  have hexec : (aux.execfn ++ [0]).length = aux.execfn.length + 1 := by simp
  rw [h.mem_eq]
  refine ⟨shows_poke, shows_poke.poke_below hblock, ?_, ?_, ?_, ?_⟩
  · exact (shows_poke.poke_below (by omega)).poke_below (by omega)
  · exact ((shows_poke.poke_below (by omega)).poke_below (by omega)).poke_below (by omega)
  · exact (((shows_poke.poke_below (by omega)).poke_below (by omega)).poke_below
      (by omega)).poke_below (by omega)
  · exact ((((shows_poke.poke_below (by omega)).poke_below (by omega)).poke_below
      (by omega)).poke_below (by omega)).poke_below (by omega)

/-- What the reader finds is what went in.  The pointers to the strings of the
    vector are `random`, `execfn` and, if there is a platform string, `platform`. -/
structure ReadsBack (r : StackRange) (argv envp : List Bytes) (aux : AuxvSpec) (sp : Nat)
    (m : Memory) (p : Parsed) (random execfn : Nat) (platform : Option Nat) : Prop where
  argv_eq : p.argv.map Prod.snd = argv
  envp_eq : p.envp.map Prod.snd = envp
  pointers : ∀ e ∈ p.argv ++ p.envp, sp ≤ e.1 ∧ e.1 < r.top
  distinct : (p.auxv.map Prod.fst).Nodup
  fields : ∀ f ∈ aux.fields random platform (some execfn), p.get f.1 = f.2
  phdr : ∀ k ∈ [AT_PHDR, AT_PHENT, AT_PHNUM], (p.get k).isSome ↔ aux.phdr.isSome
  random_aligned : SP_ALIGN ∣ random
  random_bytes : Shows m random aux.random.val ∧ sp ≤ random ∧ random + 16 ≤ r.top
  execfn_copy : Shows m execfn (aux.execfn ++ [0]) ∧ sp ≤ execfn ∧ execfn < r.top
  platform_iff : platform.isSome ↔ aux.platform ≠ []
  platform_copy : ∀ a ∈ platform, Shows m a (aux.platform ++ [0]) ∧ sp ≤ a ∧ a < r.top

/-- The platform string has a copy exactly when it is not empty. -/
theorem Built.platform_copy (h : Built r argv envp aux m l q m') {a : Nat}
    (ha : a ∈ if aux.platform.isEmpty then none else some q.platform) :
    Shows m' a (aux.platform ++ [0]) ∧ l.sp ≤ a ∧ a < r.top := by
  have hshows := h.shows.2.2.2.2.2
  have hblock := h.block_le
  obtain ⟨hargv, henvp, hrandom, hexecfn, htop⟩ := h.order
  unfold platformBlob at hshows htop
  split at ha
  · cases ha
  · rename_i hne
    rw [Option.mem_some_iff] at ha
    subst ha
    rw [if_neg hne] at hshows htop
    rw [List.length_append, List.length_singleton] at htop
    exact ⟨hshows, by omega, by omega⟩

/-- A part of the stack begins in a range that fits 64 bits and is not at zero. -/
theorem Built.addrs_bounds (h : Built r argv envp aux m l q m') {p : Nat}
    (hp : p ∈ addrs q.argv argv ++ addrs q.envp envp) : l.sp ≤ p ∧ p < r.top ∧ p ≠ 0 := by
  have hblock := h.block_le
  rw [length_words, q.length_block] at hblock
  obtain ⟨-, -, hrandom, hexecfn, htop⟩ := h.order
  have hargv := h.argv_eq
  have henvp := h.envp_eq
  rcases List.mem_append.mp hp with hp | hp
  · have := mem_addrs hp
    omega
  · have := mem_addrs hp
    omega

/-- The reader walks over the block and finds the pointers and the pairs. -/
theorem Built.readStack_eq (h : Built r argv envp aux m l q m') (hargv : ∀ s ∈ argv, 0 ∉ s)
    (henvp : ∀ s ∈ envp, 0 ∉ s) {fuel : Nat} (hfuel : r.top - l.sp ≤ fuel) :
    readStack m' fuel l.sp =
      some ⟨(addrs q.argv argv).zip argv, (addrs q.envp envp).zip envp, q.pairs aux⟩ := by
  obtain ⟨hwords, hargs, henvs, -, -, -⟩ := h.shows
  have hblock := h.block_le
  rw [length_words, q.length_block] at hblock
  obtain ⟨-, -, hrandom, hexecfn, htop⟩ := h.order
  have hlt := r.top_lt
  have hargvEq := h.argv_eq
  have henvpEq := h.envp_eq
  have hargsLt (p : Nat) (hp : p ∈ addrs q.argv argv) : p < 2 ^ 64 := by
    have := h.addrs_bounds (List.mem_append_left _ hp)
    omega
  have henvsLt (p : Nat) (hp : p ∈ addrs q.envp envp) : p < 2 ^ 64 := by
    have := h.addrs_bounds (List.mem_append_right _ hp)
    omega
  have henvsPos (p : Nat) (hp : p ∈ addrs q.envp envp) : p ≠ 0 :=
    (h.addrs_bounds (List.mem_append_right _ hp)).2.2
  have hpairs : ∀ e ∈ q.pairs aux, (e.1 < 2 ^ 64 ∧ e.2 < 2 ^ 64) ∧ e.1 ≠ AT_NULL := by
    intro e he
    rw [Places.pairs, auxPairs_eq, mem_pairsOf] at he
    have hkey := key_fields he
    refine ⟨⟨hkey.2, value_fields (by omega) ?_ ?_ he e.2 rfl⟩, hkey.1⟩
    · intro a ha
      have := h.platform_copy ha
      omega
    · intro a ha
      rw [Option.mem_some_iff] at ha
      omega
  -- the block, word by word
  obtain ⟨hargc, hrest⟩ := shows_words_cons hwords (by omega)
  have hargStrings := cstrAt_addrs hargs hargv (show (cstrs argv).length ≤ fuel by omega)
  have henvStrings := cstrAt_addrs henvs henvp (show (cstrs envp).length ≤ fuel by omega)
  obtain ⟨hreadArgs, hrest⟩ := readArgs_of_shows hrest hargsLt hargStrings
  obtain ⟨hreadEnv, hrest⟩ := readEnv_of_shows (n := fuel) hrest henvsLt henvsPos henvStrings
    (by rw [length_addrs]; omega)
  have hreadAux := readAux_of_shows (n := fuel) hrest (fun e he => (hpairs e he).1)
    (fun e he => (hpairs e he).2) (by rw [List.length_append] at hblock; omega)
  simp only [length_addrs] at hreadArgs hreadEnv hreadAux
  simp only [readStack, hargc, hreadArgs, hreadEnv, hreadAux, Option.bind_eq_bind,
    Option.bind_some]

theorem map_snd_zip_addrs (a : Nat) (ss : List Bytes) :
    ((addrs a ss).zip ss).map Prod.snd = ss :=
  List.map_snd_zip (by simp)

theorem Built.readsBack (h : Built r argv envp aux m l q m') :
    ReadsBack r argv envp aux l.sp m'
      ⟨(addrs q.argv argv).zip argv, (addrs q.envp envp).zip envp, q.pairs aux⟩ q.random q.execfn
      (if aux.platform.isEmpty then none else some q.platform) := by
  obtain ⟨-, -, -, hrandom, hexecfn, -⟩ := h.shows
  have hblock := h.block_le
  obtain ⟨hargv, henvp, hbelow, hexecfnEq, htop⟩ := h.order
  have hfields : ∀ f ∈ aux.fields q.random
      (if aux.platform.isEmpty then none else some q.platform) (some q.execfn),
      Parsed.get ⟨(addrs q.argv argv).zip argv, (addrs q.envp envp).zip envp, q.pairs aux⟩ f.1 =
        f.2 :=
    fun f hf => get_pairsOf (auxPairs_eq _ _ _ _) nodup_fields hf
  refine ⟨map_snd_zip_addrs _ _, map_snd_zip_addrs _ _, ?_, ?_, hfields, ?_, ?_,
    ⟨hrandom, by omega, by omega⟩, ⟨hexecfn, by omega, by omega⟩, ?_, fun _ => h.platform_copy⟩
  · intro e he
    have hp : e.1 ∈ addrs q.argv argv ++ addrs q.envp envp := by
      rcases List.mem_append.mp he with he | he
      · exact List.mem_append_left _ (List.of_mem_zip he).1
      · exact List.mem_append_right _ (List.of_mem_zip he).1
    exact ⟨(h.addrs_bounds hp).1, (h.addrs_bounds hp).2.1⟩
  · have hkeys := keys_pairsOf (aux.fields q.random
      (if aux.platform.isEmpty then none else some q.platform) (some q.execfn))
    rw [← auxPairs_eq] at hkeys
    exact hkeys.nodup nodup_fields
  · simp only [AuxvSpec.fields, List.forall_mem_cons] at hfields
    simp only [List.forall_mem_cons, hfields, Option.isSome_map]
    simp
  · have hdvd := dvd_roundDown SP_ALIGN q.execfn
    rw [← h.random_eq] at hdvd
    exact (Nat.dvd_add_left (by decide)).mp hdvd
  · cases hp : aux.platform <;> simp

/-- **Reading back a built stack yields what was put in.**  The stack pointer is
    aligned, and a reader with enough fuel, which is at most the size of the stack,
    finds the arguments, the environment and the auxiliary vector. -/
theorem build_stack_reads_back (r : StackRange) {argv envp : List Bytes} (aux : AuxvSpec)
    (hargv : ∀ s ∈ argv, 0 ∉ s) (henvp : ∀ s ∈ envp, 0 ∉ s) {m m' : Memory} {l : StackLayout}
    {tr : List (Event Host)}
    (hrun : Reaches stackStep m (buildStack r argv envp aux) tr m' (.done (.ok l))) :
    SP_ALIGN ∣ l.sp ∧ ∃ p random execfn platform,
      (∀ fuel, r.top - l.sp ≤ fuel → readStack m' fuel l.sp = some p) ∧
        ReadsBack r argv envp aux l.sp m' p random execfn platform := by
  obtain ⟨q, hbuilt⟩ := wp_reaches wp_buildStack hrun
  refine ⟨hbuilt.sp_eq ▸ dvd_roundDown _ _, _, _, _, _, ?_, hbuilt.readsBack⟩
  exact fun fuel hfuel => hbuilt.readStack_eq hargv henvp hfuel

end RoundTrip

/-! ### The stack of an application thread (`sys.rs`) -/

/-- `AppStack` as the writer, in a process that has nothing but this stack. -/
def appStack (r : StackRange) (m : Memory) : (op : HostOp) → op.Res × Memory
  | .stackWrite a data =>
      if a < r.bottom ∨ min (a + data.length) (2 ^ 64 - 1) > r.top then
        ((.error Error.E2BIG : Except Error Unit), m)
      else ((.ok () : Except Error Unit), poke m a data)
  | .tryReserve _ => (true, m)
  | .openPath _ => ((.error Error.ENOENT : Except Error Opened), m)
  | .readExactAt _ _ n => ((.error Error.EBADF : Except Error (Buf n)), m)
  | .vm (.map ..) => ((.error Error.ENOMEM : Except Error Nat), m)
  | .vm (.unmap ..) => ((.error Error.EINVAL : Except Error Unit), m)
  | .vm (.protect ..) => ((.error Error.ENOSYS : Except Error Unit), m)
  | .vm (.write ..) => ((.error Error.EFAULT : Except Error Unit), m)
  | .vm (.zero ..) => ((.error Error.EFAULT : Except Error Unit), m)
  | .vm (.icacheSync ..) => ((), m)
  | .vm (.allocAligned ..) => ((.error Error.ENOMEM : Except Error Nat), m)
  | .vm (.freeAligned ..) => ((), m)

theorem appStack_steps (r : StackRange) (m : Memory) (op : HostOp) :
    stackStep m op (appStack r m op).1 (appStack r m op).2 := by
  cases op with
  | stackWrite a data =>
    simp only [appStack]
    split <;> rfl
  | vm op => cases op <;> rfl
  | _ => rfl

def smallStack : StackRange := ⟨0x7003, 0x7803, by decide, by decide⟩

def smallAux : AuxvSpec :=
  { phdr := some 0x40, phent := 56, phnum := 2, platform := [0x78], execfn := [0x61] }

def smallBuild : List (Event Host) × Memory × Outcome Error StackLayout :=
  (buildStack smallStack [[0x61], []] [[0x45, 0x3d]] smallAux).run (I := Host)
    (appStack smallStack) fun _ => 0xaa

theorem smallBuild_sp : smallBuild.2.2 = ok ⟨0x7670, 0x7670, 0x7670⟩ := by
  decide +kernel

/-- The reader finds the empty argument and the address of the program headers. -/
theorem small_stack_read_back :
    ∃ p, readStack smallBuild.2.1 0x800 0x7670 = some p ∧
      p.argv.map Prod.snd = [[0x61], []] ∧ p.get AT_PHDR = some 0x40 := by
  have hrun := run_reaches (H := stackStep) (appStack_steps smallStack)
    (buildStack smallStack [[0x61], []] [[0x45, 0x3d]] smallAux) fun _ => 0xaa
  change Reaches stackStep _ _ smallBuild.1 smallBuild.2.1 (.done smallBuild.2.2) at hrun
  rw [smallBuild_sp] at hrun
  obtain ⟨-, p, random, execfn, platform, hread, hback⟩ :=
    build_stack_reads_back smallStack smallAux (by decide) (by decide) hrun
  refine ⟨p, hread 0x800 (by decide), hback.argv_eq, ?_⟩
  exact hback.fields (AT_PHDR, some 0x40) (by simp [AuxvSpec.fields, smallAux])

end ElfLoader.Auxv
