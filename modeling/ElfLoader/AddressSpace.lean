import ElfLoader.LoaderSteps
import ElfLoader.Pages

/-!
# An address space

`Space` is the memory the loader works on: a protection for each mapped page, a
byte for each address, and the heap blocks handed out by `alloc_aligned`, whose
pages are mapped and writable before and after.  `step` says what each call may
answer and what it changes; a call that fails changes nothing.
-/

namespace ElfLoader.AddressSpace

open ElfLoader Outcome Prog Elf Layout Loader

structure Space where
  /-- Protection of each mapped page, by page number. -/
  prot : Nat → Option Nat
  mem : Nat → UInt8
  /-- Live heap blocks, address and length, the last one first. -/
  blocks : List (Nat × Nat)

/-- What stays the same while the loader runs: the files, which changes of
    protection can be enforced, and whether `unmap` can fail. -/
structure World where
  lookup : Bytes → Option Opened
  /-- Content by the handle of a source. -/
  bytes : Nat → Bytes
  /-- Content by descriptor. -/
  fdBytes : Int → Bytes
  accepts : (addr len prot : Nat) → Bool
  unmaps : Bool

/-- The bytes a mapping starts with, by offset; zero past the end of a file. -/
def World.fill (w : World) : MapSrc → Nat → UInt8
  | .anon, _ => 0
  | .file fd off, k => (w.fdBytes fd).getD (off + k) 0

namespace Space

/-- A mapping of `[a, a + len)`, in place of what was there. -/
def mapIn (pg : PageSize) (s : Space) (a len prot : Nat) (fill : Nat → UInt8) : Space :=
  { s with
    prot := onPages pg.bytes a len (some prot) s.prot
    mem := fun x => if Touches pg.bytes a len (x / pg.bytes) then fill (x - a) else s.mem x }

def unmapped (pg : PageSize) (s : Space) (a len : Nat) : Space :=
  { s with prot := onPages pg.bytes a len none s.prot }

/-- New protection for the mapped pages of a range. -/
def withProt (pg : PageSize) (s : Space) (a len prot : Nat) : Space :=
  { s with prot := fun p =>
      if Touches pg.bytes a len p then (s.prot p).map fun _ => prot else s.prot p }

def written (s : Space) (a : Nat) (data : Bytes) : Space :=
  { s with mem := fun x =>
      if a ≤ x ∧ x < a + data.length then data.getD (x - a) 0 else s.mem x }

def zeroed (s : Space) (a len : Nat) : Space :=
  { s with mem := fun x => if a ≤ x ∧ x < a + len then 0 else s.mem x }

/-- What a call does to the space.  No load and no unload writes to a stack
    (`LoadCall`), so that a `stackWrite` is left out here: `processAfter` has it. -/
def after (pg : PageSize) (w : World) (s : Space) : (op : HostOp) → op.Res → Space
  | .vm (.map _ len prot src), (.ok raw : Except Error Nat) =>
      s.mapIn pg raw len prot (w.fill src)
  | .vm (.unmap a len), (.ok _ : Except Error Unit) => s.unmapped pg a len
  | .vm (.protect a len prot), (.ok _ : Except Error Unit) => s.withProt pg a len prot
  | .vm (.write a data), (.ok _ : Except Error Unit) => s.written a data
  | .vm (.zero a len), (.ok _ : Except Error Unit) => s.zeroed a len
  | .vm (.allocAligned _ len), (.ok raw : Except Error Nat) =>
      { s with blocks := (raw, len) :: s.blocks }
  | .vm (.freeAligned a len), _ => { s with blocks := s.blocks.erase (a, len) }
  | _, _ => s

def Free (pg : PageSize) (s : Space) (a len : Nat) : Prop :=
  ∀ p, Touches pg.bytes a len p → s.prot p = none

/-- The answers a call can get.  A range that is granted is aligned to the page,
    does not wrap, and is free, or, on the heap, readable, writable and in no live
    block. -/
def Answers (pg : PageSize) (w : World) (s : Space) : (op : HostOp) → op.Res → Prop
  | .vm (.map .anywhere len _ _), (.ok raw : Except Error Nat) =>
      pg.bytes ∣ raw ∧ raw + len ≤ 2 ^ 64 ∧ s.Free pg raw len
  | .vm (.map (.hint _) len _ _), (.ok raw : Except Error Nat) =>
      pg.bytes ∣ raw ∧ raw + len ≤ 2 ^ 64 ∧ s.Free pg raw len
  | .vm (.map (.exact a) _ _ _), (.ok raw : Except Error Nat) => raw = a
  | .vm (.allocAligned _ len), (.ok raw : Except Error Nat) =>
      pg.bytes ∣ raw ∧ raw + len ≤ 2 ^ 64 ∧
        (∀ p, Touches pg.bytes raw len p → s.prot p = some RW) ∧
        ∀ blk ∈ s.blocks, raw + len ≤ blk.1 ∨ blk.1 + blk.2 ≤ raw
  | .vm (.unmap _ _), (.error _ : Except Error Unit) => w.unmaps = false
  | .vm (.protect a len prot), (.ok _ : Except Error Unit) => w.accepts a len prot = true
  | .vm (.protect a len prot), (.error _ : Except Error Unit) => w.accepts a len prot = false
  | .openPath path, (.ok opened : Except Error Opened) => w.lookup path = some opened
  | .readExactAt src off n, (.ok buf : Except Error (Buf n)) =>
      buf.val = bytesAt (w.bytes src.handle) off n
  | _, _ => True

def protAt (pg : PageSize) (s : Space) (x : Nat) : Option Nat := s.prot (x / pg.bytes)

def Writable (pg : PageSize) (s : Space) (x : Nat) : Prop :=
  ∃ prot, s.protAt pg x = some prot ∧ prot &&& PROT_WRITE ≠ 0

end Space

/-- What the calls do to an address space. -/
def step (pg : PageSize) (w : World) : Handler Host Space := fun s op r s' =>
  s.Answers pg w op r ∧ s' = s.after pg w op r

def WritesAllowed (pg : PageSize) (s : Space) : HostOp → Prop
  | .vm (.write a data) => ∀ x, a ≤ x → x < a + data.length → s.Writable pg x
  | .vm (.zero a len) => ∀ x, a ≤ x → x < a + len → s.Writable pg x
  | _ => True

/-- The calls that fill a reservation: none of them takes or releases memory or
    opens a file. -/
def FillCall : HostOp → Prop
  | .vm (.map (.exact _) _ _ _) => True
  | .vm (.protect _ _ _) => True
  | .vm (.write _ _) => True
  | .vm (.zero _ _) => True
  | .vm (.icacheSync _ _) => True
  | .readExactAt _ _ _ => True
  | .tryReserve _ => True
  | _ => False

/-- What every call of a fill satisfies when it is made. -/
def fillPre (pg : PageSize) (s : Space) (op : HostOp) : Prop := FillCall op ∧ WritesAllowed pg s op

/-! ### Ranges and frames -/

def Within (lo hi x : Nat) : Prop := lo ≤ x ∧ x < hi

instance (lo hi x : Nat) : Decidable (Within lo hi x) := inferInstanceAs (Decidable (_ ∧ _))

/-- Nothing has changed outside of `R`, and no block was taken or returned. -/
structure AgreeOff (pg : PageSize) (R : Nat → Prop) (s s' : Space) : Prop where
  blocks : s'.blocks = s.blocks
  prot : ∀ x, ¬ R x → s'.protAt pg x = s.protAt pg x
  mem : ∀ x, ¬ R x → s'.mem x = s.mem x

/-- Nothing has changed inside of `R`. -/
structure AgreeOn (pg : PageSize) (R : Nat → Prop) (s s' : Space) : Prop where
  prot : ∀ x, R x → s'.protAt pg x = s.protAt pg x
  mem : ∀ x, R x → s'.mem x = s.mem x

namespace AgreeOff

variable {pg : PageSize} {R R' : Nat → Prop} {s s₁ s₂ : Space}

theorem refl (pg : PageSize) (R : Nat → Prop) (s : Space) : AgreeOff pg R s s :=
  ⟨rfl, fun _ _ => rfl, fun _ _ => rfl⟩

theorem mono (h : AgreeOff pg R s s₁) (hR : ∀ x, R x → R' x) : AgreeOff pg R' s s₁ :=
  ⟨h.blocks, fun x hx => h.prot x fun hr => hx (hR x hr),
    fun x hx => h.mem x fun hr => hx (hR x hr)⟩

theorem trans (h₁ : AgreeOff pg R s s₁) (h₂ : AgreeOff pg R s₁ s₂) : AgreeOff pg R s s₂ :=
  ⟨h₂.blocks.trans h₁.blocks, fun x hx => (h₂.prot x hx).trans (h₁.prot x hx),
    fun x hx => (h₂.mem x hx).trans (h₁.mem x hx)⟩

theorem agreeOn (h : AgreeOff pg R s s₁) (hR : ∀ x, R' x → ¬ R x) : AgreeOn pg R' s s₁ :=
  ⟨fun x hx => h.prot x (hR x hx), fun x hx => h.mem x (hR x hx)⟩

end AgreeOff

section Effects

variable {pg : PageSize} {s : Space} {a len prot x : Nat} {fill : Nat → UInt8}

theorem protAt_mapIn (ha : pg.bytes ∣ a) (hlen : pg.bytes ∣ len) :
    (s.mapIn pg a len prot fill).protAt pg x =
      if a ≤ x ∧ x < a + len then some prot else s.protAt pg x := by
  simp only [Space.protAt, Space.mapIn, onPages, touches_div_iff_of_dvd pg.pos ha hlen]

theorem mem_mapIn (ha : pg.bytes ∣ a) (hlen : pg.bytes ∣ len) :
    (s.mapIn pg a len prot fill).mem x =
      if a ≤ x ∧ x < a + len then fill (x - a) else s.mem x := by
  simp only [Space.mapIn, touches_div_iff_of_dvd pg.pos ha hlen]

theorem protAt_unmapped (ha : pg.bytes ∣ a) (hlen : pg.bytes ∣ len) :
    (s.unmapped pg a len).protAt pg x =
      if a ≤ x ∧ x < a + len then none else s.protAt pg x := by
  simp only [Space.protAt, Space.unmapped, onPages, touches_div_iff_of_dvd pg.pos ha hlen]

theorem protAt_withProt (ha : pg.bytes ∣ a) (hlen : pg.bytes ∣ len) :
    (s.withProt pg a len prot).protAt pg x =
      if a ≤ x ∧ x < a + len then (s.protAt pg x).map fun _ => prot else s.protAt pg x := by
  simp only [Space.protAt, Space.withProt, touches_div_iff_of_dvd pg.pos ha hlen]

theorem agreeOff_mapIn (ha : pg.bytes ∣ a) (hlen : pg.bytes ∣ len) :
    AgreeOff pg (Within a (a + len)) s (s.mapIn pg a len prot fill) := by
  refine ⟨rfl, fun x hx => ?_, fun x hx => ?_⟩
  · exact (protAt_mapIn ha hlen).trans (if_neg hx)
  · exact (mem_mapIn ha hlen).trans (if_neg hx)

theorem agreeOff_withProt (ha : pg.bytes ∣ a) (hlen : pg.bytes ∣ len) :
    AgreeOff pg (Within a (a + len)) s (s.withProt pg a len prot) := by
  refine ⟨rfl, fun x hx => ?_, fun _ _ => rfl⟩
  exact (protAt_withProt ha hlen).trans (if_neg hx)

theorem agreeOff_zeroed : AgreeOff pg (Within a (a + len)) s (s.zeroed a len) :=
  ⟨rfl, fun _ _ => rfl, fun _ hx => if_neg hx⟩

theorem agreeOff_written {data : Bytes} :
    AgreeOff pg (Within a (a + data.length)) s (s.written a data) :=
  ⟨rfl, fun _ _ => rfl, fun _ hx => if_neg hx⟩

end Effects

/-- Reads and reservations of vectors leave the address space alone. -/
theorem reads_step {pg : PageSize} {w : World} (s : Space) (src : Source) :
    Reads (step pg w) (fillPre pg) src (· = s)
      (fun off bs => bs = bytesAt (w.bytes src.handle) off bs.length) where
  keep := by
    rintro s op rfl hq
    cases op with
    | readExactAt src off n => exact ⟨⟨trivial, trivial⟩, fun r s' h => h.2⟩
    | tryReserve n => exact ⟨⟨trivial, trivial⟩, fun r s' h => h.2⟩
    | _ => exact absurd hq (by simp [HostOp.Quiet])
  read := by
    rintro s off n buf s' rfl ⟨hread, -⟩
    have h : buf.val = bytesAt (w.bytes src.handle) off n := hread
    rw [buf.property]
    exact h

/-- **A loop over ranges that follow one another.**  If each turn changes only
    its own range and leaves `Q` there, all ranges have their `Q` at the end: no
    later turn disturbs an earlier one.  `K` is kept throughout, and `F` is what an
    error tells. -/
theorem wp_forM_ranges {pg : PageSize} {w : World} {body : Nat → Prog Host Error Unit} {X : Prop}
    (xs : List Nat) (lo hi : Nat → Nat) (F : Prop) (K : Space → Prop)
    (Q : Nat → Space → Prop)
    (hpair : xs.Pairwise fun i j => hi i ≤ lo j)
    (hQ : ∀ i s s', Q i s → AgreeOn pg (Within (lo i) (hi i)) s s' → Q i s')
    (hbody : ∀ i ∈ xs, ∀ s, K s → wp (step pg w) (fillPre pg) (body i)
      (post (fun s' _ => K s' ∧ AgreeOff pg (Within (lo i) (hi i)) s s' ∧ Q i s')
        (fun s' _ => F ∧ K s' ∧ AgreeOff pg (Within (lo i) (hi i)) s s') X) s)
    {s : Space} (hs : K s) :
    wp (step pg w) (fillPre pg) (xs.forM body)
      (post (fun s' _ => K s' ∧ AgreeOff pg (fun x => ∃ i ∈ xs, Within (lo i) (hi i) x) s s' ∧
          ∀ i ∈ xs, Q i s')
        (fun s' _ => F ∧ K s' ∧ AgreeOff pg (fun x => ∃ i ∈ xs, Within (lo i) (hi i) x) s s')
        X) s := by
  induction xs generalizing s with
  | nil => exact ⟨hs, AgreeOff.refl pg _ s, by simp⟩
  | cons i rest ih =>
    rw [List.pairwise_cons] at hpair
    have hhead (x : Nat) (hx : Within (lo i) (hi i) x) :
        ∃ j ∈ i :: rest, Within (lo j) (hi j) x := ⟨i, by simp, hx⟩
    have htail (x : Nat) (hx : ∃ j ∈ rest, Within (lo j) (hi j) x) :
        ∃ j ∈ i :: rest, Within (lo j) (hi j) x := by
      obtain ⟨j, hj, hjx⟩ := hx
      exact ⟨j, by simp [hj], hjx⟩
    refine wp_bind_err (hbody i (by simp) s hs) (fun _ _ h => ⟨h.1, h.2.1, h.2.2.mono hhead⟩) ?_
    rintro s₁ _ ⟨hK, hoff, hi₁⟩
    refine wp_post_mono (ih hpair.2 (fun j hj => hbody j (by simp [hj])) hK) ?_ ?_
    · rintro s₂ _ ⟨hK₂, hoff₂, hall⟩
      refine ⟨hK₂, (hoff.mono hhead).trans (hoff₂.mono htail), ?_⟩
      rw [List.forall_mem_cons]
      refine ⟨hQ i s₁ s₂ hi₁ (hoff₂.agreeOn ?_), hall⟩
      rintro x ⟨-, hx⟩ ⟨j, hj, hxj, -⟩
      have := hpair.1 j hj
      omega
    · exact fun s₂ _ h => ⟨h.1, h.2.1, (hoff.mono hhead).trans (h.2.2.mono htail)⟩

end ElfLoader.AddressSpace
