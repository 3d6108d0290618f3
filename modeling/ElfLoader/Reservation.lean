import ElfLoader.Machine

/-!
# The reservation protocol

Seen from outside, the loader takes a range, works inside the range it took last,
and gives whole ranges back.  `hold` keeps the ranges a sequence of calls has
taken and not yet given back, `Permits` says which calls the protocol allows
while these ranges are held, and `Protocol` lets the environment answer anything,
except that a range it grants is aligned to the page and ends at most at `lim`.
`wp_load` and `wp_loadProgram` show that the loader keeps to the protocol and
never stops the machine.
-/

namespace ElfLoader.Reservation

open ElfLoader Outcome Prog Elf Layout Loader Program

/-- A range the loader holds; `allocated` ranges come from the heap. -/
structure Held where
  addr : Nat
  len : Nat
  allocated : Bool
deriving DecidableEq, Repr

/-- The bytes `[a, a + len)` are bytes of the range. -/
def Held.Covers (r : Held) (a len : Nat) : Prop :=
  len = 0 ∨ (r.addr ≤ a ∧ a + len ≤ r.addr + r.len)

def heldBy (l : Loaded) : Held := ⟨l.plan.reserveAddr, l.plan.reserveLen, l.allocated⟩

def hold (g : List Held) : (op : HostOp) → op.Res → List Held
  | .vm (.map .anywhere len _ _), (.ok raw : Except Error Nat) => ⟨raw, len, false⟩ :: g
  | .vm (.map (.hint _) len _ _), (.ok raw : Except Error Nat) => ⟨raw, len, false⟩ :: g
  | .vm (.unmap a len), (.ok _ : Except Error Unit) => g.erase ⟨a, len, false⟩
  | .vm (.allocAligned _ len), (.ok raw : Except Error Nat) => ⟨raw, len, true⟩ :: g
  | .vm (.freeAligned a len), _ => g.erase ⟨a, len, true⟩
  | _, _ => g

/-- The calls allowed while `g` is held: work inside the range taken last, and
    give back only what is held, in one piece. -/
def Permits (g : List Held) : HostOp → Prop
  | .vm (.map (.exact a) len _ _) => ∃ r ∈ g.head?, r.allocated = false ∧ r.Covers a len
  | .vm (.unmap a len) => ⟨a, len, false⟩ ∈ g
  | .vm (.protect a len _) => ∃ r ∈ g.head?, r.Covers a len
  | .vm (.write a data) => ∃ r ∈ g.head?, r.Covers a data.length
  | .vm (.zero a len) => ∃ r ∈ g.head?, r.Covers a len
  | .vm (.icacheSync a len) => ∃ r ∈ g.head?, r.Covers a len
  | .vm (.freeAligned a len) => ⟨a, len, true⟩ ∈ g
  | _ => True

/-- What the environment promises about the ranges it grants. -/
def Granted (pg : PageSize) (lim : Nat) : (op : HostOp) → op.Res → Prop
  | .vm (.map .anywhere len _ _), (.ok raw : Except Error Nat) =>
      pg.bytes ∣ raw ∧ raw + len ≤ lim
  | .vm (.map (.hint _) len _ _), (.ok raw : Except Error Nat) =>
      pg.bytes ∣ raw ∧ raw + len ≤ lim
  | .vm (.allocAligned _ len), (.ok raw : Except Error Nat) => pg.bytes ∣ raw ∧ raw + len ≤ lim
  | _, _ => True

def Protocol (pg : PageSize) (lim : Nat) : Handler Host (List Held) :=
  fun g op r g' => Granted pg lim op r ∧ g' = hold g op r

section Calls

variable {pg : PageSize} {lim : Nat} {g : List Held} {ε α : Type}
  {P : List Held → α → Prop} {E : List Held → ε → Prop} {X : Prop}

theorem hold_quiet {op : HostOp} (h : op.Quiet) (r : op.Res) : hold g op r = g := by
  cases op with
  | readExactAt src off n => rfl
  | tryReserve n => rfl
  | _ => exact absurd h (by simp [HostOp.Quiet])

theorem permits_quiet {op : HostOp} (h : op.Quiet) : Permits g op := by
  cases op with
  | readExactAt src off n => trivial
  | tryReserve n => trivial
  | _ => exact absurd h (by simp [HostOp.Quiet])

/-- Calls that read change nothing that is held. -/
theorem reads_protocol (src : Source) :
    Reads (Protocol pg lim) Permits src (· = g) (fun _ _ => True) where
  keep := by
    rintro s op rfl hq
    refine ⟨permits_quiet hq, ?_⟩
    rintro r s' ⟨-, rfl⟩
    exact hold_quiet hq r
  read := fun _ _ _ _ _ _ _ => trivial

/-- A call inside the range taken last, or a quiet one, keeps what is held. -/
theorem wp_ask_still {op : HostOp} {meaning : op.Res → Outcome ε α}
    {Q : List Held → Outcome ε α → Prop} (hp : Permits g op) (hh : ∀ r, hold g op r = g)
    (hQ : ∀ r, Q g (meaning r)) :
    wp (Protocol pg lim) Permits (ask (I := Host) op meaning) Q g := by
  refine ⟨hp, ?_⟩
  rintro r g' ⟨-, rfl⟩
  rw [hh r]
  exact hQ r

end Calls

/-! ### Filling a reservation -/

section Fill

variable {pg : PageSize} {lim : Nat} {image : Image} {p : LoadPlan} {g : List Held} {r : Held}
  {X : Prop}

/-- The state of the protocol while a plan is executed: its range is the one
    taken last. -/
structure Working (pg : PageSize) (image : Image) (p : LoadPlan) (r : Held) (g : List Held) :
    Prop where
  valid : image.Valid pg
  placed : Placed pg image p
  head : g.head? = some r
  addr : r.addr = p.reserveAddr
  len : r.len = p.reserveLen

/-- Nothing changes, whatever the outcome. -/
abbrev still (g : List Held) (X : Prop) : List Held → Outcome Error Unit → Prop :=
  post (fun g' _ => g' = g) (fun g' _ => g' = g) X

theorem Working.covers (hw : Working pg image p r g) {i : Nat} (hi : i ∈ image.loads) {a n : Nat}
    (hlo : (image.seg i).start pg + p.bias ≤ a) (hhi : a + n ≤ (image.seg i).fin pg + p.bias) :
    r.Covers a n := by
  have hin := hw.placed.seg_inside hw.valid hi
  refine Or.inr ?_
  rw [hw.addr, hw.len]
  omega

theorem Working.covers_pages (hw : Working pg image p r g) {i : Nat} (hi : i ∈ image.loads) :
    r.Covers (pagesOf pg p.bias (image.seg i)).1 (pagesOf pg p.bias (image.seg i)).2 := by
  unfold pagesOf
  split
  · exact hw.covers hi le_rfl (by simp only; omega)
  · exact Or.inl rfl

theorem wp_vmMap_still {a len prot : Nat} {src : MapSrc} (hr : r.allocated = false)
    (hg : g.head? = some r) (hc : r.Covers a len) :
    wp (Protocol pg lim) Permits (Vm.map (.exact a) len prot src)
      (post (fun g' _ => g' = g) (fun g' _ => g' = g) X) g := by
  refine wp_ask_still ⟨r, hg, hr, hc⟩ (fun _ => rfl) ?_
  intro res
  cases res <;> rfl

theorem wp_mapFilePart (hw : Working pg image p r g) (hr : r.allocated = false) (fd : Int) {i : Nat}
    (hi : i ∈ image.loads) :
    wp (Protocol pg lim) Permits (mapFilePart fd (segOf pg p.bias i (image.seg i))) (still g X) g := by
  obtain ⟨size, hok⟩ := hw.valid.seg_ok hi
  have hle := fileFin_le_fin hok
  have hstart := start_le_fileFin pg (image.seg i)
  rw [mapFilePart_segOf]
  split
  · refine wp_bind_post (wp_vmMap_still hr hw.head (hw.covers hi le_rfl (by omega))) ?_
    rintro g' _ rfl
    rfl
  · rfl

/-- The bytes to clear are bytes of the segment. -/
theorem Working.covers_tail (hw : Working pg image p r g) {i : Nat} (hi : i ∈ image.loads) :
    r.Covers ((image.seg i).pVaddr + p.bias + (image.seg i).pFilesz)
      (fileFin pg (image.seg i) + p.bias -
        ((image.seg i).pVaddr + p.bias + (image.seg i).pFilesz)) := by
  obtain ⟨size, hok⟩ := hw.valid.seg_ok hi
  have hle := fileFin_le_fin hok
  have hstart : (image.seg i).start pg ≤ (image.seg i).pVaddr := roundDown_le _ _
  by_cases h : (image.seg i).pVaddr + p.bias + (image.seg i).pFilesz <
      fileFin pg (image.seg i) + p.bias
  · exact hw.covers hi (by omega) (by omega)
  · exact Or.inl (by omega)

theorem wp_clearTail (hw : Working pg image p r g) {i : Nat} (hi : i ∈ image.loads) :
    wp (Protocol pg lim) Permits (clearTail (segOf pg p.bias i (image.seg i))) (still g X) g := by
  rw [clearTail_segOf]
  split
  · refine wp_ask_still ⟨r, hw.head, hw.covers_tail hi⟩ (fun _ => rfl) ?_
    intro res
    cases res <;> rfl
  · rfl

theorem wp_mapAnonPart (hw : Working pg image p r g) (hr : r.allocated = false) {i : Nat}
    (hi : i ∈ image.loads) :
    wp (Protocol pg lim) Permits (mapAnonPart (segOf pg p.bias i (image.seg i))) (still g X) g := by
  have hstart := start_le_fileFin pg (image.seg i)
  rw [mapAnonPart_segOf]
  split
  · refine wp_bind_post (wp_vmMap_still hr hw.head (hw.covers hi (by omega) (by omega))) ?_
    rintro g' _ rfl
    rfl
  · rfl

theorem wp_closeWriteWindow (hw : Working pg image p r g) {i : Nat} (hi : i ∈ image.loads) :
    wp (Protocol pg lim) Permits (closeWriteWindow (segOf pg p.bias i (image.seg i)))
      (still g X) g := by
  rw [closeWriteWindow_eq hw.valid hw.placed hi]
  split
  · refine wp_bind.mpr (wp_ask_still ⟨r, hw.head, hw.covers_pages hi⟩ (fun _ => rfl) ?_)
    intro res
    cases res <;> rfl
  · rfl

theorem wp_syncMappedSegment (hw : Working pg image p r g) {i : Nat} (hi : i ∈ image.loads) :
    wp (Protocol pg lim) Permits (syncMappedSegment image (segOf pg p.bias i (image.seg i)))
      (still g X) g := by
  rw [syncMappedSegment_eq hw.valid hi]
  split
  · exact wp_ask_still ⟨r, hw.head, hw.covers_tail hi⟩ (fun _ => rfl) fun _ => rfl
  · rfl

theorem wp_fillMapped (hw : Working pg image p r g) (hr : r.allocated = false) (fd : Int) :
    wp (Protocol pg lim) Permits (fillMapped image fd p) (still g X) g := by
  rw [fillMapped_eq hw.placed]
  refine wp_bind_post (wp_forM_still ?_) ?_
  · intro i hi
    rw [fillMappedSegment_eq hw.valid hw.placed hi]
    refine wp_bind_post (wp_mapFilePart hw hr fd hi) ?_
    rintro g₁ _ rfl
    refine wp_bind_post (wp_clearTail hw hi) ?_
    rintro g₂ _ rfl
    refine wp_bind_post (wp_mapAnonPart hw hr hi) ?_
    rintro g₃ _ rfl
    exact wp_closeWriteWindow hw hi
  · rintro g₁ _ rfl
    exact wp_forM_still fun i hi => wp_syncMappedSegment hw hi

theorem wp_copySegment (hw : Working pg image p r g) (src : Source) {i : Nat}
    (hi : i ∈ image.loads) :
    wp (Protocol pg lim) Permits
      (copySegment image src pg.bytes p (segOf pg p.bias i (image.seg i))) (still g X) g := by
  obtain ⟨size, hok⟩ := hw.valid.seg_ok hi
  have hfin := hw.placed.seg_fin_lt hw.valid hi
  have hmem := mem_le_fin pg (image.seg i)
  have hfile := hok.filesz_le
  have hstart : (image.seg i).start pg ≤ (image.seg i).pVaddr := roundDown_le _ _
  rw [copySegment_eq hw.valid hw.placed hi]
  refine wp_bind_post (wp_copyLoop (fun _ g' => g' = g) hok.file_lt (by omega) ?_ rfl
    (Nat.zero_le _)) ?_
  · rintro done n g₁ hn hle rfl
    refine wp_bind_post ((reads_protocol src).wp_read rfl _ _) ?_
    rintro g₂ data ⟨rfl, -⟩
    refine wp_ask_still ⟨r, hw.head, hw.covers hi (by omega) ?_⟩ (fun _ => rfl) ?_
    · rw [data.property]
      omega
    · intro res
      cases res <;> rfl
  · rintro g₁ _ rfl
    unfold clearRest
    split
    · rw [U64.sub_of_le (by omega), lift_ok_bind]
      refine wp_ask_still ⟨r, hw.head, hw.covers hi (by omega) (by omega)⟩ (fun _ => rfl) ?_
      intro res
      cases res <;> rfl
    · rfl

theorem wp_fillCopied (hw : Working pg image p r g) (src : Source) :
    wp (Protocol pg lim) Permits (fillCopied image src pg.bytes p) (still g X) g := by
  rw [fillCopied_eq hw.valid hw.placed]
  refine wp_bind_post ((reads_protocol src).wp_tryReserve rfl _ _) ?_
  rintro g₁ _ rfl
  refine wp_bind_post (wp_forM_still fun i hi => wp_copySegment hw src hi) ?_
  rintro g₂ _ rfl
  refine wp_bind_post (wp_forM_still ?_) ?_
  · intro i hi
    have hi := List.mem_of_mem_filter hi
    exact wp_ask_still ⟨r, hw.head, hw.covers_pages hi⟩ (fun _ => rfl) fun _ => rfl
  · rintro g₃ _ rfl
    refine wp_forM_still fun i hi => ?_
    rw [protectSegment_eq hw.valid hw.placed hi]
    exact wp_bind.mpr (wp_ask_still ⟨r, hw.head, hw.covers_pages hi⟩ (fun _ => rfl) fun _ => rfl)

end Fill

/-! ### Taking a reservation and giving it back -/

section Load

variable {pg : PageSize} {lim : Nat} {image : Image} {g : List Held}

/-- At most one range more than before is held: what an error leaves behind. -/
def AtMostOneMore (g g' : List Held) : Prop := g' = g ∨ ∃ r, g' = r :: g

/-- The reservation of a placement is held, and its plan can be made. -/
structure Reserved (pg : PageSize) (lim : Nat) (image : Image) (g : List Held) (allocated : Bool)
    (g' : List Held) (pl : Placement) : Prop where
  held : g' = heldBy ⟨planFor pg image pl, allocated⟩ :: g
  page : pl.PageAligned pg
  ends : lim < 2 ^ 64 → EndsInside pg image pl

theorem wp_reserveMapped {X : Prop} (hv : image.Valid pg) (hspan : SpanFits pg image) :
    wp (Protocol pg lim) Permits
      (reserveMapped image pg.bytes (image.lo pg) (needOf pg image))
      (post (Reserved pg lim image g false) (fun g' _ => AtMostOneMore g g') X) g := by
  rw [reserveMapped_eq hv hspan]
  split
  · refine wp_bind.mpr ⟨trivial, ?_⟩
    rintro res g' ⟨hgrant, rfl⟩
    cases res with
    | error e => exact Or.inl rfl
    | ok raw =>
      refine ⟨rfl, hgrant.1, fun hlim => endsInside_of_le hv hgrant.1 ?_⟩
      have := hgrant.2
      omega
  · refine wp_bind.mpr ⟨trivial, ?_⟩
    rintro res g' ⟨hgrant, rfl⟩
    cases res with
    | error e => exact Or.inl rfl
    | ok got =>
      simp only [ofExcept_ok, wp_done, andThen_ok]
      split
      · refine wp_bind.mpr ⟨by simp [hold, Permits], ?_⟩
        rintro res g' ⟨-, rfl⟩
        cases res with
        | error e => exact Or.inr ⟨_, rfl⟩
        | ok u => exact Or.inl (by simp [hold])
      · rename_i hgot
        obtain rfl : got = image.lo pg := by simpa using hgot
        exact ⟨rfl, trivial, fun _ => trivial⟩

theorem wp_allocAligned {X : Prop} (hv : image.Valid pg) :
    wp (Protocol pg lim) Permits (Vm.allocAligned (alignOf pg image) (needOf pg image))
      (post (fun g' raw => Reserved pg lim image g true g' (.at raw))
        (fun g' _ => AtMostOneMore g g') X) g := by
  refine ⟨trivial, ?_⟩
  rintro res g' ⟨hgrant, rfl⟩
  cases res with
  | error e => exact Or.inl rfl
  | ok raw =>
    refine ⟨rfl, hgrant.1, fun hlim => endsInside_of_le hv hgrant.1 ?_⟩
    have := hgrant.2
    omega

theorem wp_makePlan {allocated : Bool} {g' : List Held} {pl : Placement} (hv : image.Valid pg)
    (hspan : SpanFits pg image) (hr : Reserved pg lim image g allocated g' pl) :
    wp (Protocol pg lim) Permits (makePlan image pg.bytes pl)
      (post (fun g'' p => g'' = heldBy ⟨p, allocated⟩ :: g ∧ Placed pg image p)
        (fun g'' _ => AtMostOneMore g g'') (2 ^ 64 ≤ lim)) g' := by
  refine wp_bind.mpr (wp_ask_still trivial (fun _ => rfl) ?_)
  intro reserved
  rw [andThen_ok]
  refine wp_lift_post ?_ ?_ ?_
  · intro p hplan
    obtain ⟨-, hfits, hend, rfl⟩ := (plan_eq_ok hv hspan.1 hspan.2).mp hplan
    exact ⟨hr.held, placed_planFor hv hspan.1 hfits hend hr.page⟩
  · exact fun _ _ => Or.inr ⟨_, hr.held⟩
  · intro hpanic
    by_contra hlim
    exact plan_ne_panic hv hspan.1 hspan.2 (hr.ends (not_le.mp hlim)) hpanic

/-- Giving a held range back. -/
theorem wp_unload {ε : Type} {l : Loaded} {X : Prop} {E : List Held → ε → Prop}
    (h : heldBy l ∈ g) :
    wp (Protocol pg lim) Permits (l.unload : Prog Host ε Unit)
      (post (fun g' _ => g' = g ∨ g' = g.erase (heldBy l)) E X) g := by
  obtain ⟨plan, allocated⟩ := l
  cases allocated with
  | true =>
    refine ⟨h, ?_⟩
    rintro res g' ⟨-, rfl⟩
    exact Or.inr rfl
  | false =>
    refine wp_bind.mpr ⟨h, ?_⟩
    rintro res g' ⟨-, rfl⟩
    cases res with
    | ok u => exact Or.inr rfl
    | error e => exact Or.inl rfl

theorem wp_fillOrUnload {l : Loaded} {fill : Prog Host Error Unit} {X : Prop}
    (hfill : wp (Protocol pg lim) Permits fill (still (heldBy l :: g) X) (heldBy l :: g)) :
    wp (Protocol pg lim) Permits (fillOrUnload l fill)
      (post (fun g' l' => l' = l ∧ g' = heldBy l :: g) (fun g' _ => AtMostOneMore g g') X)
      (heldBy l :: g) := by
  refine wp_attempt_post hfill ?_ ?_
  · rintro g' _ rfl
    exact ⟨rfl, rfl⟩
  · rintro g' e rfl
    refine wp_bind_post (wp_unload (E := fun g' _ => AtMostOneMore g g') (by simp)) ?_
    rintro g' _ (rfl | rfl)
    · exact Or.inr ⟨_, rfl⟩
    · exact Or.inl (by simp)

/-- **A load keeps to the protocol.**  On success exactly its reservation is held
    in addition, and the image lies in it. -/
theorem wp_load (b : Build) (hv : image.Valid b.page) (src : Source) (fd : Option Int) :
    wp (Protocol b.page lim) Permits (load b image src fd)
      (post (fun g' l => g' = heldBy l :: g ∧ Placed b.page image l.plan)
        (fun g' _ => AtMostOneMore g g') (2 ^ 64 ≤ lim)) g := by
  have hmapped (fd : Int) : wp (Protocol b.page lim) Permits (loadMapped image fd b.page.bytes)
      (post (fun g' l => g' = heldBy l :: g ∧ Placed b.page image l.plan)
        (fun g' _ => AtMostOneMore g g') (2 ^ 64 ≤ lim)) g := by
    rw [loadMapped_eq hv]
    split
    · rename_i hspan
      refine wp_bind_post (wp_reserveMapped hv hspan) ?_
      intro g₁ pl hr
      refine wp_bind_post (wp_makePlan hv hspan hr) ?_
      rintro g₂ p ⟨rfl, hp⟩
      refine wp_post_mono (wp_fillOrUnload (wp_fillMapped ⟨hv, hp, rfl, rfl, rfl⟩ rfl fd)) ?_
        (fun _ _ h => h)
      rintro g' l ⟨rfl, rfl⟩
      exact ⟨rfl, hp⟩
    · exact Or.inl rfl
  have hcopied : wp (Protocol b.page lim) Permits (loadCopied image src b.page.bytes)
      (post (fun g' l => g' = heldBy l :: g ∧ Placed b.page image l.plan)
        (fun g' _ => AtMostOneMore g g') (2 ^ 64 ≤ lim)) g := by
    rw [loadCopied_eq hv]
    split
    · exact Or.inl rfl
    · split
      · rename_i hspan
        refine wp_bind_post (wp_allocAligned hv) ?_
        intro g₁ raw hr
        refine wp_bind_post (wp_makePlan hv hspan hr) ?_
        rintro g₂ p ⟨rfl, hp⟩
        refine wp_post_mono (wp_fillOrUnload (wp_fillCopied ⟨hv, hp, rfl, rfl, rfl⟩ src)) ?_
          (fun _ _ h => h)
        rintro g' l ⟨rfl, rfl⟩
        exact ⟨rfl, hp⟩
      · exact Or.inl rfl
  unfold load
  split
  · exact hmapped _
  · exact hcopied

end Load

/-! ### A program and its interpreter -/

section Program

variable {lim : Nat} {g : List Held} {X : Prop}

theorem wp_openPath (pg : PageSize) (path : Bytes) :
    wp (Protocol pg lim) Permits (openPath path)
      (post (fun g' _ => g' = g) (fun g' _ => g' = g) X) g := by
  refine wp_ask_still trivial (fun _ => rfl) ?_
  intro res
  cases res <;> rfl

theorem wp_interpPath (pg : PageSize) (image : Image) (src : Source) :
    wp (Protocol pg lim) Permits (image.interpPath src)
      (post (fun g' _ => g' = g) (fun g' _ => g' = g) X) g := by
  refine wp_lift_bind ?_ (fun _ _ => rfl) fun hp => absurd hp okOr_ne_panic
  intro ph _
  refine wp_bind_post ((reads_protocol src).wp_tryReserve rfl _ _) ?_
  rintro g₁ _ rfl
  refine wp_bind_post ((reads_protocol src).wp_read rfl _ _) ?_
  rintro g₂ buf ⟨rfl, -⟩
  split <;> rfl

theorem wp_parseImage (b : Build) (src : Source) :
    wp (Protocol b.page lim) Permits
      ((Image.parse b.arch src b.pageSize).mapErr Reject.toError)
      (post (fun g' image => g' = g ∧ image.Valid b.page) (fun g' _ => g' = g) X) g := by
  refine wp_mapErr_post (wp_post_mono (wp_parse (reads_protocol src) b.arch b.page rfl) ?_ ?_)
  · exact fun _ _ h => ⟨h.1, h.2.valid⟩
  · exact fun _ _ h => h

theorem wp_loadInterp (b : Build) (path : Bytes) :
    wp (Protocol b.page lim) Permits (loadInterp b path)
      (post (fun g' v => g' = heldBy v.2 :: g) (fun g' _ => AtMostOneMore g g') (2 ^ 64 ≤ lim)) g := by
  refine wp_bind_err (wp_openPath b.page path) ?_ ?_
  · exact fun _ _ h => Or.inl h
  rintro g₁ opened rfl
  refine wp_bind_err (wp_parseImage b opened.src) ?_ ?_
  · exact fun _ _ h => Or.inl h
  rintro g₂ image ⟨rfl, hv⟩
  refine wp_lift_bind ?_ (fun _ _ => Or.inl rfl) fun hp => absurd hp guardErr_ne_panic
  intro _ _
  refine wp_lift_bind ?_ (fun _ _ => Or.inl rfl) fun hp => absurd hp guardErr_ne_panic
  intro _ _
  refine wp_bind_post (wp_load b hv opened.src opened.fd) ?_
  rintro g₃ loaded ⟨rfl, -⟩
  rfl

def heldByProgram (p : LoadedProgram) : List Held :=
  (p.interp.map fun v => heldBy v.2).toList ++ [heldBy p.main]

theorem wp_loadInterpFor (b : Build) (main : Loaded) (ip : Option Bytes) :
    wp (Protocol b.page lim) Permits (loadInterpFor b main ip)
      (post (fun g' interp => g' = (interp.map fun v => heldBy v.2).toList ++ (heldBy main :: g))
        (fun _ _ => True) (2 ^ 64 ≤ lim)) (heldBy main :: g) := by
  cases ip with
  | none => rfl
  | some ip =>
    refine wp_attempt_post (wp_loadInterp b ip) ?_ ?_
    · rintro g' v rfl
      rfl
    · intro g' e hmore
      have hmem : heldBy main ∈ g' := by
        rcases hmore with rfl | ⟨r, rfl⟩ <;> simp
      exact wp_bind_post (wp_unload hmem) fun _ _ _ => trivial

/-- **`load_program` keeps to the protocol**: it never stops the machine, and a
    program it returns holds its own reservation and its interpreter's. -/
theorem wp_loadProgram (b : Build) (path : Bytes) :
    wp (Protocol b.page lim) Permits (loadProgram b path)
      (post (fun g' p => g' = heldByProgram p ++ g ∧ p.image.Valid b.page ∧
        Placed b.page p.image p.main.plan) (fun _ _ => True) (2 ^ 64 ≤ lim)) g := by
  refine wp_bind_err (wp_openPath b.page path) (fun _ _ _ => trivial) ?_
  rintro g₁ opened rfl
  refine wp_bind_err (wp_parseImage b opened.src) (fun _ _ _ => trivial) ?_
  rintro g₂ image ⟨rfl, hv⟩
  refine wp_lift_bind ?_ (fun _ _ => trivial) fun hp => absurd hp guardErr_ne_panic
  intro _ _
  refine wp_bind_post (P := fun g' _ => g' = g₂) ?_ ?_
  · unfold interpPathOf
    split
    · refine wp_bind_err (wp_interpPath b.page image opened.src) (fun _ _ _ => trivial) ?_
      rintro g₃ ip rfl
      rfl
    · rfl
  rintro g₃ ip rfl
  refine wp_bind_err (wp_load b hv opened.src opened.fd) (fun _ _ _ => trivial) ?_
  rintro g₄ main ⟨rfl, hp⟩
  have hlo := hv.lo_le_hi
  rw [hp.base_eq, hp.fin_eq, U64.sub_of_le (by omega), lift_ok_bind]
  obtain ⟨hit, hhit⟩ := entryIsExecutable_eq_ok (ε := Error) hv hp
  rw [hhit, lift_ok_bind]
  refine wp_bind_post (wp_loadInterpFor b main ip) ?_
  rintro g₅ interp rfl
  refine ⟨?_, hv, hp⟩
  simp [heldByProgram]

end Program

/-! ### No image stops the machine -/

/-- Any host that grants page-aligned ranges inside the address space: no file,
    whatever its reads answer, makes `load_program` stop the machine, and neither
    does the search for the header table in what it returns. -/
theorem loadProgram_never_panics {σ : Type} (b : Build) (path : Bytes) (H : Handler Host σ)
    (hgrant : ∀ s op r s', H s op r s' → Granted b.page (2 ^ 64 - 1) op r) {s s' : σ}
    {tr : List (Event Host)} {r : Outcome Error LoadedProgram}
    (hrun : Reaches H s (loadProgram b path) tr s' (.done r)) :
    r ≠ panic ∧ ∀ p, r = ok p → (p.main.plan.phdrAddr p.image : Outcome Error (Option Nat)) ≠ panic := by
  obtain ⟨g, -, hq⟩ := wp_simulates (J := fun _ _ => True)
    (fun g s op r s' _ _ hH => ⟨hold g op r, ⟨hgrant s op r s' hH, rfl⟩, trivial⟩)
    (fun _ _ _ _ _ => trivial) trivial (wp_loadProgram (g := []) b path)
    (hrun.interleaves fun _ _ => False)
  cases r with
  | panic => exact absurd hq (by simp)
  | err e => exact ⟨by simp, by simp⟩
  | ok p =>
    refine ⟨by simp, ?_⟩
    rintro q hq'
    cases hq'
    exact phdrAddr_ne_panic hq.2.1

section Machine

open AddressSpace

/-- The machine grants ranges that end inside the address space. -/
theorem machine_granted (m : Machine) (pg : PageSize) (s : Space) (op : HostOp) :
    Granted pg (2 ^ 64 - 1) op (m.answer pg s op) := by
  cases op with
  | vm op =>
    cases op with
    | map place len prot src =>
      simp only [Machine.answer]
      cases hplace : m.place pg s len place with
      | none => cases place <;> trivial
      | some raw =>
        cases place with
        | exact a => trivial
        | anywhere =>
          obtain ⟨hdvd, hlt, -⟩ := free_of_fits (fits_place (by simp) hplace)
          exact ⟨hdvd, Nat.le_sub_one_of_lt hlt⟩
        | hint a =>
          obtain ⟨hdvd, hlt, -⟩ := free_of_fits (fits_place (by simp) hplace)
          exact ⟨hdvd, Nat.le_sub_one_of_lt hlt⟩
    | allocAligned align len =>
      simp only [Machine.answer]
      cases hfit : firstFit pg m.heap (fun a => fitsHeap pg s a len) m.slots with
      | none => trivial
      | some raw =>
        obtain ⟨hdvd, hlt, -⟩ := heap_of_fits (fits_firstFit (f := fun a => fitsHeap pg s a len) hfit)
        exact ⟨hdvd, Nat.le_sub_one_of_lt hlt⟩
    | _ => trivial
  | _ => trivial

/-- The small program with the highest entry point is refused, not fatal. -/
theorem small_program_never_panics :
    ((loadProgram ⟨.x86_64, page4K, true⟩ []).run (I := Host)
      ((machine (smallElf (2 ^ 64 - 1)) 4).exec page4K) emptySpace).2.2 ≠ panic := by
  refine (loadProgram_never_panics ⟨.x86_64, page4K, true⟩ []
    (fun s op r s' => (r, s') = (machine (smallElf (2 ^ 64 - 1)) 4).exec page4K s op) ?_
    (run_reaches (fun _ _ => rfl) _ emptySpace)).1
  intro s op r s' h
  cases h
  exact machine_granted _ page4K s op

end Machine

end ElfLoader.Reservation
