import ElfLoader.StackImage

/-!
# The bounds of the initial stack

`build_stack` writes downwards and checks the bottom before every write, with two
realignments in between that are not checked.  Here the addresses it writes are
collected: they stay in the stack and no two writes meet, and the layout fails
exactly when the strings are too long or the last address, computed over the
integers, is below the bottom.
-/

namespace ElfLoader.Auxv

open ElfLoader Outcome Prog

def touched : HostOp → List Nat
  | .stackWrite a data => List.range' a data.length
  | _ => []

def written (tr : List (Event Host)) : List Nat := tr.flatMap fun e => touched e.1

/-- Allocation succeeds, and the writer takes what lies in its range. -/
def Accepts (r : StackRange) : (op : HostOp) → op.Res → Prop
  | .tryReserve _, room => room = true
  | .stackWrite a data, (res : Except Error Unit) =>
      r.bottom ≤ a ∧ a + data.length ≤ r.top → res = .ok ()
  | _, _ => True

/-- A system that answers every call, and these as expected. -/
structure Accepting {σ : Type} (r : StackRange) (H : Handler Host σ) : Prop where
  answers : ∀ s op, ∃ res s', H s op res s'
  accepts : ∀ s op res s', H s op res s' → Accepts r op res

/-- The calls as far as the written addresses go. -/
def boundedStep (r : StackRange) : Handler Host (List Nat) := fun w op res w' =>
  Accepts r op res ∧ w' = w ++ touched op

/-- The call writes nothing outside of the stack. -/
def Inside (r : StackRange) (op : HostOp) : Prop := ∀ x ∈ touched op, r.bottom ≤ x ∧ x < r.top

/-- The addresses that were written lie between `sp` and the top, each once. -/
structure Stacked (r : StackRange) (sp : Nat) (w : List Nat) : Prop where
  nodup : w.Nodup
  above : ∀ x ∈ w, sp ≤ x ∧ x < r.top

theorem Stacked.lower {r : StackRange} {sp sp' : Nat} {w : List Nat} (h : Stacked r sp w)
    (hle : sp' ≤ sp) : Stacked r sp' w := by
  constructor
  · exact h.nodup
  · intro x hx
    exact ⟨hle.trans (h.above x hx).1, (h.above x hx).2⟩

theorem Stacked.write {r : StackRange} {sp a n : Nat} {w : List Nat} (h : Stacked r sp w)
    (hle : a + n ≤ sp) (hsp : sp ≤ r.top) : Stacked r a (w ++ List.range' a n) := by
  constructor
  · rw [List.nodup_append]
    refine ⟨h.nodup, List.nodup_range', ?_⟩
    intro x hx y hy
    have hlo := (h.above x hx).1
    rw [List.mem_range'_1] at hy
    omega
  · intro x hx
    rcases List.mem_append.mp hx with hold | hnew
    · have := h.above x hold
      omega
    · rw [List.mem_range'_1] at hnew
      omega

/-! ### What each step takes -/

section Steps

variable {r : StackRange} {w : List Nat} {sp : Nat}

theorem wp_put {a : Nat} {data : Bytes} (hbot : r.bottom ≤ a) (htop : a + data.length ≤ r.top)
    {E : List Nat → Error → Prop} {X : Prop} :
    wp (boundedStep r) (fun _ => Inside r) (stackWrite a data)
      (post (fun w' _ => w' = w ++ List.range' a data.length) E X) w := by
  constructor
  · intro x hx
    have hx := List.mem_range'_1.mp hx
    omega
  · intro res w' hstep
    have hres : res = .ok () := hstep.1 ⟨hbot, htop⟩
    subst hres
    exact hstep.2

/-- Room for `n` bytes below `sp` is all that a push needs. -/
abbrev Pushed (r : StackRange) (sp n : Nat) : List Nat → Nat → Prop := fun w a =>
  a + n = sp ∧ r.bottom ≤ a ∧ Stacked r a w

abbrev NoRoom (r : StackRange) (sp n : Nat) : List Nat → Error → Prop := fun _ e =>
  e = Error.E2BIG ∧ sp < r.bottom + n

theorem wp_pushBytes_bounded {data : Bytes} (hsp : sp ≤ r.top) (h : Stacked r sp w) :
    wp (boundedStep r) (fun _ => Inside r) (pushBytes r sp data)
      (post (Pushed r sp data.length) (NoRoom r sp data.length) False) w := by
  apply wp_lift_bind
  · intro a ha
    rw [okOr_eq_ok, U64.checkedSub_eq_some] at ha
    apply wp_lift_bind
    · intro _ hbot
      rw [guardErr_eq_ok] at hbot
      apply wp_bind_post (wp_put (by omega) (by omega))
      intro w' _ hw'
      subst hw'
      exact ⟨by omega, by omega, h.write (by omega) hsp⟩
    · intro e he
      rw [guardErr_eq_err] at he
      exact ⟨he.2, by omega⟩
    · exact fun hpanic => absurd hpanic guardErr_ne_panic
  · intro e he
    rw [okOr_eq_err, U64.checkedSub_eq_none] at he
    exact ⟨he.2, by omega⟩
  · exact fun hpanic => absurd hpanic okOr_ne_panic

theorem wp_pushCstr_bounded {s : Bytes} (hsp : sp ≤ r.top) (h : Stacked r sp w) :
    wp (boundedStep r) (fun _ => Inside r) (pushCstr r sp s)
      (post (Pushed r sp (s.length + 1)) (NoRoom r sp (s.length + 1)) False) w := by
  apply wp_bind_err (wp_pushBytes_bounded hsp h) _
  · intro w b hb
    rcases hb with ⟨hb, hbot, h⟩
    rw [List.length_singleton] at hb
    split
    · rename_i hs
      rw [List.isEmpty_iff] at hs
      subst hs
      exact ⟨hb, hbot, h⟩
    · apply wp_post_mono (wp_pushBytes_bounded (by omega) h)
      · intro w' a ha
        exact ⟨by have := ha.1; omega, ha.2⟩
      · intro _ e he
        exact ⟨he.1, by have := he.2; omega⟩
  · intro _ e he
    have hlt := he.2
    rw [List.length_singleton] at hlt
    exact ⟨he.1, by omega⟩

def cstrBytes (ss : List Bytes) : Nat := (ss.map fun s => s.length + 1).sum

theorem wp_pushEach_bounded {ats : List Nat} {ss : List Bytes} (hbot : r.bottom ≤ sp)
    (hsp : sp ≤ r.top) (h : Stacked r sp w) :
    wp (boundedStep r) (fun _ => Inside r) (pushEach r sp ats ss)
      (post (fun w' q => Pushed r sp (cstrBytes ss) w' q.1 ∧ q.2.length = ats.length + ss.length)
        (NoRoom r sp (cstrBytes ss)) False) w := by
  induction ss generalizing w sp ats with
  | nil => exact ⟨⟨rfl, hbot, h⟩, rfl⟩
  | cons s ss ih =>
    have hsum : cstrBytes (s :: ss) = s.length + 1 + cstrBytes ss := rfl
    apply wp_bind_err (wp_pushCstr_bounded hsp h) _
    · intro w a ha
      rcases ha with ⟨ha, hbot, h⟩
      apply wp_post_mono (ih hbot (by omega) h)
      · intro w' q hq
        rcases hq with ⟨⟨hq, hbot, h⟩, hlen⟩
        rw [List.length_append, List.length_singleton] at hlen
        exact ⟨⟨by omega, hbot, h⟩, by rw [List.length_cons]; omega⟩
      · intro _ e he
        exact ⟨he.1, by have := he.2; omega⟩
    · intro _ e he
      exact ⟨he.1, by have := he.2; omega⟩

theorem cstrBytes_reverse (ss : List Bytes) : cstrBytes ss.reverse = cstrBytes ss := by
  rw [cstrBytes, List.map_reverse, List.sum_reverse]
  rfl

theorem wp_pushStrings_bounded {ss : List Bytes} (hbot : r.bottom ≤ sp) (hsp : sp ≤ r.top)
    (h : Stacked r sp w) :
    wp (boundedStep r) (fun _ => Inside r) (pushStrings r sp ss)
      (post (fun w' q => Pushed r sp (cstrBytes ss) w' q.1 ∧ q.2.length = ss.length)
        (NoRoom r sp (cstrBytes ss)) False) w := by
  rw [← cstrBytes_reverse]
  apply wp_bind.mpr
  constructor
  · exact fun _ hx => absurd hx List.not_mem_nil
  intro room w' hstep
  have hroom : room = true := hstep.1
  have hw' : w' = w := by rw [hstep.2]; exact List.append_nil w
  subst hroom hw'
  apply wp_bind_post (wp_pushEach_bounded hbot hsp h)
  intro w' q hq
  refine ⟨hq.1, ?_⟩
  rw [List.length_reverse, hq.2, List.length_reverse, List.length_nil, Nat.zero_add]

theorem wp_pushPlatform_bounded {platform : Bytes} (hsp : sp ≤ r.top) (h : Stacked r sp w) :
    wp (boundedStep r) (fun _ => Inside r) (pushPlatform r sp platform)
      (post (fun w' q => q.1 + (platformBlob platform).length = sp ∧ Stacked r q.1 w' ∧
          q.2.isSome = !platform.isEmpty)
        (NoRoom r sp (platformBlob platform).length) False) w := by
  unfold pushPlatform platformBlob
  split
  · rename_i hempty
    exact ⟨rfl, h, by rw [hempty]; rfl⟩
  · rename_i hne
    rw [List.length_append, List.length_singleton]
    apply wp_bind_post (wp_pushCstr_bounded hsp h)
    intro w' a ha
    exact ⟨ha.1, ha.2.2, by rw [Bool.not_eq_true] at hne; rw [hne]; rfl⟩

theorem wp_writeWords_bounded {a : Nat} {vs : List Nat} (hbot : r.bottom ≤ a)
    (htop : a + 8 * vs.length ≤ r.top) {E : List Nat → Error → Prop} :
    wp (boundedStep r) (fun _ => Inside r) (writeWords a vs)
      (post (fun w' _ => w' = w ++ List.range' a (8 * vs.length)) E False) w := by
  induction vs generalizing w a with
  | nil => exact (List.append_nil w).symm
  | cons v vs ih =>
    rw [List.length_cons] at htop ⊢
    have hlt := r.top_lt
    apply wp_bind_post (wp_put hbot (by rw [length_toLe]; omega))
    intro w₁ _ hw₁
    subst hw₁
    rw [U64.add_of_lt (by omega), lift_ok_bind]
    apply wp_post_mono (ih (by omega) (by omega)) _ (fun _ _ h => h)
    intro w' _ hw'
    rw [hw', length_toLe, List.append_assoc, List.range'_append_1, Nat.mul_add, Nat.add_comm 8]

end Steps

/-! ### When the data fits -/

/-- What the strings and the pointers to them take. -/
def argEnvSize (ss : List Bytes) : Nat := (ss.map fun s => s.length + 1 + 8).sum

/-- A slice is at most `isize::MAX` bytes long. -/
def IsSlice (s : Bytes) : Prop := s.length < 2 ^ 63

instance (s : Bytes) : Decidable (IsSlice s) := inferInstanceAs (Decidable (_ < _))

theorem argEnvLen_foldlM {ss : List Bytes} (hss : ∀ s ∈ ss, IsSlice s) {len : Nat}
    (hlen : len < 2 ^ 64) :
    ss.foldlM argEnvLen len =
      if len + argEnvSize ss < 2 ^ 64 then ok (len + argEnvSize ss) else err Error.E2BIG := by
  induction ss generalizing len with
  | nil => exact (if_pos hlen).symm
  | cons s ss ih =>
    rw [List.forall_mem_cons] at hss
    have hs : s.length < 2 ^ 63 := hss.1
    have hsize : len + argEnvSize (s :: ss) = len + (s.length + 1) + 8 + argEnvSize ss := by
      rw [argEnvSize, List.map_cons, List.sum_cons, argEnvSize]
      omega
    rw [List.foldlM_cons, argEnvLen, U64.add_of_lt (by omega), ok_bind, hsize]
    by_cases hfirst : len + (s.length + 1) < 2 ^ 64
    · rw [U64.checkedAdd_of_lt hfirst, Option.bind_some]
      by_cases hfits : len + (s.length + 1) + 8 < 2 ^ 64
      · rw [U64.checkedAdd_of_lt hfits, okOr_some, ok_bind, ih hss.2 hfits]
      · rw [U64.checkedAdd_of_le (not_lt.mp hfits), okOr_none, err_bind, if_neg (by omega)]
    · rw [U64.checkedAdd_of_le (not_lt.mp hfirst), Option.bind_none, okOr_none, err_bind,
        if_neg (by omega)]

/-- The most that arguments and environment may take. -/
def budget (r : StackRange) : Nat := max ARG_MAX ((r.top - r.bottom) / 4)

theorem budget_lt (r : StackRange) : budget r < 2 ^ 62 := by
  have hlt := r.top_lt
  have hmax : ARG_MAX < 2 ^ 62 := by decide
  unfold budget
  omega

theorem checkArgEnvSize_eq {r : StackRange} {argv envp : List Bytes}
    (hss : ∀ s ∈ argv ++ envp, IsSlice s) :
    checkArgEnvSize argv envp (r.top - r.bottom) =
      if argEnvSize (argv ++ envp) ≤ budget r then ok (argEnvSize (argv ++ envp))
      else err Error.E2BIG := by
  have hbudget := budget_lt r
  rw [checkArgEnvSize, argEnvLen_foldlM hss (by decide), Nat.zero_add, ← budget]
  by_cases hlt : argEnvSize (argv ++ envp) < 2 ^ 64
  · rw [if_pos hlt, ok_bind]
    dsimp only
    by_cases hle : argEnvSize (argv ++ envp) ≤ budget r
    · rw [guardErr_of (not_lt.mpr hle), ok_bind, if_pos hle]
    · rw [guardErr_of_not (not_not.mpr (not_le.mp hle)), err_bind, if_neg hle]
  · rw [if_neg hlt, err_bind, if_neg (by omega)]

/-- Rounding down to the alignment of the stack pointer, over the integers. -/
def alignDownInt (z : Int) : Int := z / SP_ALIGN * SP_ALIGN

theorem alignDownInt_le (z : Int) : alignDownInt z ≤ z := by
  unfold alignDownInt SP_ALIGN
  omega

theorem alignDownInt_natCast (n : Nat) : alignDownInt n = roundDown SP_ALIGN n := by
  unfold alignDownInt roundDown SP_ALIGN
  omega

/-- Entries of the auxiliary vector, `AT_NULL` included. -/
def AuxvSpec.entries (aux : AuxvSpec) : Nat :=
  15 + (if aux.phdr.isSome then 3 else 0) + (if aux.platform.isEmpty then 0 else 1) +
    (if aux.sysinfoEhdr.isSome then 1 else 0) + (if aux.minsigstksz.isSome then 1 else 0)

def blockBytes (argc envc : Nat) (aux : AuxvSpec) : Nat :=
  8 * (1 + (argc + 1) + (envc + 1)) + 16 * aux.entries

/-- The last address, computed over the integers. -/
def finalAddr (top : Nat) (argv envp : List Bytes) (aux : AuxvSpec) : Int :=
  let blobs := alignDownInt top - (platformBlob aux.platform).length - (aux.execfn.length + 1)
  alignDownInt (alignDownInt blobs - 16 - cstrBytes (argv ++ envp) -
    blockBytes argv.length envp.length aux)

def Fits (r : StackRange) (argv envp : List Bytes) (aux : AuxvSpec) : Prop :=
  argEnvSize (argv ++ envp) ≤ budget r ∧ r.bottom ≤ finalAddr r.top argv envp aux

theorem length_auxPairs (aux : AuxvSpec) (randomAt execfnAt : Nat) (platformAt : Option Nat)
    (hplatform : platformAt.isSome = !aux.platform.isEmpty) :
    (auxPairs aux randomAt platformAt (some execfnAt) ++ [(AT_NULL, 0)]).length = aux.entries := by
  have hput (k : Nat) (o : Option Nat) : (putSome k o).length = if o.isSome then 1 else 0 := by
    cases o <;> rfl
  rw [auxPairs, AuxvSpec.entries]
  simp only [List.length_append, hput, hplatform, Option.isSome_map, List.length_cons,
    List.length_nil, Option.isSome_some]
  cases aux.phdr <;> cases aux.platform.isEmpty <;> simp <;> omega

theorem cstrBytes_append (ss ts : List Bytes) :
    cstrBytes (ss ++ ts) = cstrBytes ss + cstrBytes ts := by
  rw [cstrBytes, List.map_append, List.sum_append]
  rfl

theorem length_le_argEnvSize (ss : List Bytes) : 9 * ss.length ≤ argEnvSize ss := by
  induction ss with
  | nil => exact le_rfl
  | cons s ss ih =>
    rw [argEnvSize, List.map_cons, List.sum_cons, List.length_cons, ← argEnvSize]
    omega

theorem blockSize_eq {argc envc auxc : Nat} (hlt : (argc + envc) * 8 + auxc * 16 < 2 ^ 63) :
    blockSize argc envc auxc = ok ((1 + argc + 1 + envc + 1) * 8 + auxc * 16) := by
  rw [blockSize, U64.add_of_lt (by omega), ok_bind, U64.add_of_lt (by omega), ok_bind,
    U64.add_of_lt (by omega), ok_bind, U64.add_of_lt (by omega), ok_bind, U64.mul_of_lt (by omega),
    ok_bind, U64.mul_of_lt (by omega), ok_bind, U64.add_of_lt (by omega)]

/-! ### The whole layout -/

structure Laid (r : StackRange) (argv envp : List Bytes) (aux : AuxvSpec) (w : List Nat)
    (l : StackLayout) : Prop where
  fits : Fits r argv envp aux
  sp_eq : (l.sp : Int) = finalAddr r.top argv envp aux
  layout : l.argcAt = l.sp ∧ l.lowWater = l.sp
  stacked : Stacked r l.sp w
  mem : l.sp ∈ w

section Layout

variable {r : StackRange} {argv envp : List Bytes} {aux : AuxvSpec}

/-- The last address is below the first strings. -/
theorem finalAddr_le (top : Nat) (argv envp : List Bytes) (aux : AuxvSpec) :
    finalAddr top argv envp aux ≤ (roundDown SP_ALIGN top : Int) -
      (platformBlob aux.platform).length - (aux.execfn.length + 1) := by
  rw [← alignDownInt_natCast]
  refine (alignDownInt_le _).trans ?_
  have hblobs := alignDownInt_le (alignDownInt top - (platformBlob aux.platform).length -
    (aux.execfn.length + 1))
  omega

/-- The last address from the address of the `execfn` string on. -/
theorem finalAddr_of_execfn {top execfn : Nat}
    (h : execfn + (aux.execfn.length + 1) + (platformBlob aux.platform).length =
      roundDown SP_ALIGN top) :
    finalAddr top argv envp aux = alignDownInt ((roundDown SP_ALIGN execfn : Int) - 16 -
      cstrBytes envp - cstrBytes argv - blockBytes argv.length envp.length aux) := by
  have hexecfn : alignDownInt top - (platformBlob aux.platform).length -
      (aux.execfn.length + 1) = execfn := by
    rw [alignDownInt_natCast]
    omega
  rw [finalAddr, hexecfn, alignDownInt_natCast, cstrBytes_append]
  congr 1
  push_cast
  omega

theorem not_fits_of_le {a : Int} (hle : finalAddr r.top argv envp aux ≤ a) (hlt : a < r.bottom) :
    ¬ Fits r argv envp aux := fun h => absurd (h.2.trans hle) (not_le.mpr hlt)

/-- The pointer block, from the check of its size on. -/
theorem wp_pushBlock {w argvAt envpAt : List Nat} {av : List (Nat × Nat)} {sp : Nat}
    (hsp : sp ≤ r.top) (h : Stacked r sp w) (hargv : argvAt.length = argv.length)
    (henvp : envpAt.length = envp.length) (hav : av.length = aux.entries)
    (hbudget : argEnvSize (argv ++ envp) ≤ budget r) :
    wp (boundedStep r) (fun _ => Inside r) (do
        let block ← (blockSize argv.length envp.length av.length : Outcome Error Nat)
        let low ← okOr Error.E2BIG (U64.checkedSub sp block)
        let sp := alignDown low SP_ALIGN
        guardErr (¬ sp < r.bottom) Error.E2BIG
        let a ← writeWords sp [argv.length]
        let a ← writeWords a argvAt
        let a ← writeWords a [0]
        let a ← writeWords a envpAt
        let a ← writeWords a [0]
        let _ ← writeWords a (av.flatMap fun e => [e.1, e.2])
        pure { sp, argcAt := sp, lowWater := sp } : Prog Host Error StackLayout)
      (post (fun w' l => (l.argcAt = l.sp ∧ l.lowWater = l.sp) ∧ Stacked r l.sp w' ∧ l.sp ∈ w' ∧
          r.bottom ≤ l.sp ∧
          (l.sp : Int) = alignDownInt (sp - blockBytes argv.length envp.length aux))
        (fun _ e => e = Error.E2BIG ∧
          alignDownInt (sp - blockBytes argv.length envp.length aux) < r.bottom) False) w := by
  have hlt := r.top_lt
  have hsmall := budget_lt r
  have hcount := length_le_argEnvSize (argv ++ envp)
  rw [List.length_append] at hcount
  have hentries : aux.entries ≤ 21 := by
    unfold AuxvSpec.entries
    split <;> split <;> split <;> split <;> omega
  have hle := alignDownInt_le (sp - blockBytes argv.length envp.length aux)
  rw [hav, blockSize_eq (by omega), lift_ok_bind]
  have hbytes : (1 + argv.length + 1 + envp.length + 1) * 8 + aux.entries * 16 =
      blockBytes argv.length envp.length aux := by
    unfold blockBytes
    omega
  rw [hbytes]
  apply wp_lift_bind
  · intro low hlow
    rw [okOr_eq_ok, U64.checkedSub_eq_some] at hlow
    have hcast : (sp : Int) - blockBytes argv.length envp.length aux = low := by omega
    have hdown := roundDown_le SP_ALIGN low
    rw [hcast, alignDownInt_natCast, alignDown_eq (by omega)]
    dsimp only
    apply wp_lift_bind
    · intro _ hbot
      rw [guardErr_eq_ok] at hbot
      simp only [← bind_assoc, ← writeWords_append]
      have hwords : 8 * ([argv.length] ++ (argvAt ++ ([0] ++ (envpAt ++ ([0] ++
          av.flatMap fun e : Nat × Nat => [e.1, e.2]))))).length =
          blockBytes argv.length envp.length aux := by
        simp only [List.length_append, List.length_flatMap, List.length_cons, List.length_nil,
          List.map_const', List.sum_replicate_nat, hargv, henvp, hav, blockBytes]
        omega
      have hpos : 0 < blockBytes argv.length envp.length aux := by
        unfold blockBytes
        omega
      apply wp_bind_post (wp_writeWords_bounded (by omega) (by omega))
      intro w' _ hw'
      rw [hw', hwords]
      have hend : roundDown SP_ALIGN low + blockBytes argv.length envp.length aux ≤ sp := by omega
      refine ⟨⟨rfl, rfl⟩, h.write hend hsp, ?_, not_lt.mp hbot, rfl⟩
      apply List.mem_append_right
      exact List.mem_range'_1.mpr ⟨le_rfl, Nat.lt_add_of_pos_right hpos⟩
    · intro e he
      rw [guardErr_eq_err] at he
      exact ⟨he.2, by have := he.1; omega⟩
    · exact fun hpanic => guardErr_ne_panic hpanic
  · intro e he
    rw [okOr_eq_err, U64.checkedSub_eq_none] at he
    exact ⟨he.2, by omega⟩
  · exact fun hpanic => okOr_ne_panic hpanic

theorem wp_buildStack_bounded (aux : AuxvSpec) (hss : ∀ s ∈ argv ++ envp, IsSlice s) :
    wp (boundedStep r) (fun _ => Inside r) (buildStack r argv envp aux)
      (post (fun w l => Laid r argv envp aux w l)
        (fun _ e => e = Error.E2BIG ∧ ¬ Fits r argv envp aux) False) [] := by
  have hlt := r.top_lt
  have htop := roundDown_le SP_ALIGN r.top
  have hfinal := finalAddr_le r.top argv envp aux
  rw [buildStack, U64.sub_of_le r.bottom_le, lift_ok_bind, checkArgEnvSize_eq hss]
  by_cases hbudget : argEnvSize (argv ++ envp) ≤ budget r
  swap
  · rw [if_neg hbudget, lift_err_bind]
    exact ⟨rfl, fun h => hbudget h.1⟩
  rw [if_pos hbudget, lift_ok_bind, alignDown_eq hlt]
  have hempty : Stacked r (roundDown SP_ALIGN r.top) [] :=
    ⟨List.nodup_nil, fun _ hx => absurd hx List.not_mem_nil⟩
  -- the two strings at the top
  refine wp_bind_err (wp_pushPlatform_bounded htop hempty) ?_ ?_
  · intro _ e he
    exact ⟨he.1, not_fits_of_le hfinal (by have := he.2; omega)⟩
  intro w q hq
  rcases q with ⟨platform, platformAt⟩
  rcases hq with ⟨hplatform, hstacked, hat⟩
  dsimp only at hplatform hstacked hat ⊢
  refine wp_bind_err (wp_pushCstr_bounded (by omega) hstacked) ?_ ?_
  · intro _ e he
    exact ⟨he.1, not_fits_of_le hfinal (by have := he.2; omega)⟩
  intro w execfn hexecfn
  rcases hexecfn with ⟨hexecfn, -, hstacked⟩
  have hsum : finalAddr r.top argv envp aux = alignDownInt ((roundDown SP_ALIGN execfn : Int) - 16 -
      cstrBytes envp - cstrBytes argv - blockBytes argv.length envp.length aux) :=
    finalAddr_of_execfn (by omega)
  have hfinal := hsum.trans_le (alignDownInt_le _)
  -- the random bytes, after a realignment that may already leave the stack
  have hdown := roundDown_le SP_ALIGN execfn
  rw [alignDown_eq (by omega)]
  have hrandomLen : aux.random.val.length = 16 := aux.random.property
  refine wp_bind_err (wp_pushBytes_bounded (by omega) (hstacked.lower hdown)) ?_ ?_
  · intro _ e he
    exact ⟨he.1, not_fits_of_le hfinal (by have := he.2; omega)⟩
  intro w random hrandom
  rcases hrandom with ⟨hrandom, hbot, hstacked⟩
  refine wp_bind_err (wp_pushStrings_bounded hbot (by omega) hstacked) ?_ ?_
  · intro _ e he
    exact ⟨he.1, not_fits_of_le hfinal (by have := he.2; omega)⟩
  intro w q hq
  rcases q with ⟨envpTop, envpAt⟩
  rcases hq with ⟨⟨henvp, hbot, hstacked⟩, henvpLen⟩
  dsimp only at henvp hbot hstacked henvpLen ⊢
  refine wp_bind_err (wp_pushStrings_bounded hbot (by omega) hstacked) ?_ ?_
  · intro _ e he
    exact ⟨he.1, not_fits_of_le hfinal (by have := he.2; omega)⟩
  intro w q hq
  rcases q with ⟨sp, argvAt⟩
  rcases hq with ⟨⟨hargv, hbot, hstacked⟩, hargvLen⟩
  dsimp only at hargv hbot hstacked hargvLen ⊢
  have hrest : (roundDown SP_ALIGN execfn : Int) - 16 - cstrBytes envp - cstrBytes argv -
      blockBytes argv.length envp.length aux = sp - blockBytes argv.length envp.length aux := by
    omega
  rw [hrest] at hsum
  refine wp_post_mono (wp_pushBlock (by omega) hstacked hargvLen henvpLen
    (length_auxPairs aux random execfn platformAt hat) hbudget) ?_ ?_
  · intro w l hl
    rcases hl with ⟨hlayout, hstacked, hmem, hbot, hsp⟩
    rw [← hsum] at hsp
    exact ⟨⟨hbudget, by omega⟩, hsp, hlayout, hstacked, hmem⟩
  · intro _ e he
    exact ⟨he.1, not_fits_of_le hsum.le he.2⟩

/-- **The stack is never left, and the layout fails only when the data does not fit.**
    Whatever the system is that provides memory and accepts writes in the range, there
    is a run to the end.  In every run, finished or not, every byte written lies in the
    stack.  A successful layout has written its stack pointer, nothing below it, and no
    byte twice.  It succeeds, with the last address as its stack pointer, exactly when
    there is room; otherwise the error is `E2BIG`. -/
theorem build_stack_in_bounds {σ : Type} {H : Handler Host σ} (hss : ∀ s ∈ argv ++ envp, IsSlice s)
    (hH : Accepting r H) (s : σ) :
    (∃ tr s' res, Reaches H s (buildStack r argv envp aux) tr s' (.done res)) ∧
    ∀ tr s' q, Reaches H s (buildStack r argv envp aux) tr s' q →
      (∀ x ∈ written tr, r.bottom ≤ x ∧ x < r.top) ∧
      ∀ res, q = .done res →
        (∀ l, res = ok l → l.lowWater = l.sp ∧ l.sp ∈ written tr ∧
          (∀ x ∈ written tr, l.sp ≤ x) ∧ (written tr).Nodup) ∧
        ((∃ l, res = ok l) ↔ Fits r argv envp aux) ∧
        (∀ l, res = ok l → (l.sp : Int) = finalAddr r.top argv envp aux) ∧
        (¬ Fits r argv envp aux → res = err Error.E2BIG) := by
  constructor
  · exact exists_reaches_done hH.answers _ _
  intro tr s' q hrun
  have hghost := hrun.noted (G := boundedStep r) (fun w op _ => w ++ touched op)
    (fun s op res s' _ hop => ⟨hH.accepts s op res s' hop, rfl⟩) []
  rw [← List.flatMap_eq_foldl] at hghost
  have hwp := wp_buildStack_bounded (r := r) aux hss
  constructor
  · intro x hx
    rcases List.mem_flatMap.mp hx with ⟨e, he, hxe⟩
    exact hghost.forall_event hwp e he x hxe
  · intro res hq
    subst hq
    have hres := wp_reaches hwp hghost
    cases res with
    | panic => exact hres.elim
    | err e =>
      rcases hres with ⟨rfl, hno⟩
      have hne (l : StackLayout) : (err Error.E2BIG : Outcome Error StackLayout) ≠ ok l := by simp
      refine ⟨fun l hl => absurd hl (hne l), ?_, fun l hl => absurd hl (hne l), fun _ => rfl⟩
      constructor
      · exact fun h => absurd h.choose_spec (hne _)
      · exact fun h => absurd h hno
    | ok l =>
      have hlaid : Laid r argv envp aux (written tr) l := hres
      refine ⟨?_, ⟨fun _ => hlaid.fits, fun _ => ⟨l, rfl⟩⟩, ?_, fun hno => absurd hlaid.fits hno⟩
      · intro l' hl'
        cases hl'
        refine ⟨hlaid.layout.2, hlaid.mem, ?_, hlaid.stacked.nodup⟩
        exact fun x hx => (hlaid.stacked.above x hx).1
      · intro l' hl'
        cases hl'
        exact hlaid.sp_eq

end Layout

theorem accepting_appStack (r : StackRange) :
    Accepting r fun m op res m' => appStack r m op = (res, m') := by
  have hlt := r.top_lt
  constructor
  · exact fun m op => ⟨_, _, rfl⟩
  · intro m op res m' hop
    cases op with
    | stackWrite a data =>
      intro hin
      rw [appStack, if_neg (by omega)] at hop
      exact (Prod.mk.inj hop).1.symm
    | tryReserve n => exact (Prod.mk.inj hop).1.symm
    | vm op => trivial
    | _ => trivial

/-- The stack pointer of the small program is the address computed in advance. -/
theorem small_stack_in_bounds :
    (written smallBuild.1).Nodup ∧ 0x7670 ∈ written smallBuild.1 ∧
      (0x7670 : Int) = finalAddr 0x7803 [[0x61], []] [[0x45, 0x3d]] smallAux := by
  have hrun := run_reaches (H := fun m op res m' => appStack smallStack m op = (res, m'))
    (fun _ _ => rfl) (buildStack smallStack [[0x61], []] [[0x45, 0x3d]] smallAux) fun _ => 0xaa
  change Reaches _ _ _ smallBuild.1 smallBuild.2.1 (.done smallBuild.2.2) at hrun
  rw [smallBuild_sp] at hrun
  have hslices : ∀ s ∈ [[0x61], []] ++ [[0x45, 0x3d]], IsSlice s := by decide
  have hall := (build_stack_in_bounds hslices (accepting_appStack smallStack) _).2 _ _ _ hrun
  have hend := hall.2 _ rfl
  have hok := hend.1 _ rfl
  exact ⟨hok.2.2.2, hok.2.1, hend.2.2.1 _ rfl⟩

end ElfLoader.Auxv
