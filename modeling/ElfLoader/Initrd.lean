import ElfLoader.FileRead
import ElfLoader.Process

/-!
# A program in the initrd (`app.rs`, `sys.rs`)

Without a file system the image is in memory, and the loader reads it while it writes the
program.  The initrd is in use, so the ranges that are granted are elsewhere, and the loader
keeps to what it was granted; hence every read finds the bytes the initrd had at first, and
the load is one from a file with these bytes.
-/

namespace ElfLoader.Initrd

open ElfLoader Outcome Prog Elf Layout Loader Program AddressSpace Reservation FileRead
open ElfLoader.App (INITRD errno)

/-- `InitrdOpener::open`: one image, which cannot be mapped, and nothing else. -/
def initrdOpen (image : MemImage) (path : Bytes) : Except Error Opened :=
  if path ≠ INITRD then .error Error.ENOENT else .ok ⟨⟨0, some image.len⟩, none⟩

/-- What the opener and `MemImage` answer, in memory as it is at the time of the call. -/
def initrdAnswers (pg : PageSize) (w : World) (image : MemImage) (s : Space) :
    (op : HostOp) → op.Res → Prop
  | .openPath path, r => r = initrdOpen image path
  | .readExactAt _ off n, (r : Except Error (Buf n)) =>
      ((ofExcept r).mapErr errno >>= fun bs => ok bs.val) =
        image.readExactAt s.mem off (List.replicate n 0)
  | op, r => s.Answers pg w op r

/-- The calls of a load from the initrd. -/
def initrdStep (pg : PageSize) (w : World) (image : MemImage) : Handler Host Space :=
  fun s op r s' =>
    initrdAnswers pg w image s op r ∧ Nonzero op r ∧ s' = processAfter pg w s op r

/-- The initrd as a file with the bytes it has in `m`. -/
def initrdWorld (w : World) (image : MemImage) (m : Memory) : World :=
  { w with
    lookup := fun path => (initrdOpen image path).toOption
    bytes := fun _ => peek m image.base image.len }

def initrdBytes (image : MemImage) : Nat → Prop := Within image.base (image.base + image.len)

/-! ### What is in use is spared -/

/-- The bytes of `R` are in use and show `m`, and no range that is held has one of them. -/
structure Spared (pg : PageSize) (R : Nat → Prop) (m : Memory) (g : List Held) (s : Space) :
    Prop where
  apart : BlocksApart s
  use : InUse pg s R True
  off : ∀ r ∈ g, ∀ x, R x → ¬ Within r.addr (r.addr + r.len) x
  offPage : ∀ r ∈ g, r.allocated = false → ∀ x, R x →
    ¬ Touches pg.bytes r.addr r.len (x / pg.bytes)
  mem : ∀ x, R x → s.mem x = m x

section Spared

variable {pg : PageSize} {w : World} {R : Nat → Prop} {m : Memory} {g g' : List Held}
  {s s' : Space}

/-- A call that leaves `R` and the blocks alone, and takes no range. -/
theorem Spared.still (h : Spared pg R m g s) (hg : ∀ r ∈ g', r ∈ g)
    (hblocks : s'.blocks = s.blocks) (hprot : ∀ x, R x → s'.protAt pg x ≠ none)
    (hmem : ∀ x, R x → s'.mem x = s.mem x) : Spared pg R m g' s' where
  apart := by
    unfold BlocksApart
    rw [hblocks]
    exact h.apart
  use := by
    refine ⟨hprot, fun _ => ?_⟩
    rw [hblocks]
    exact h.use.block trivial
  off := fun r hr => h.off r (hg r hr)
  offPage := fun r hr => h.offPage r (hg r hr)
  mem := fun x hx => (hmem x hx).trans (h.mem x hx)

/-- A mapping of pages that are not pages of `R`. -/
theorem Spared.mapIn (h : Spared pg R m g s) {a len prot : Nat} {fill : Nat → UInt8}
    (hoff : ∀ x, R x → ¬ Touches pg.bytes a len (x / pg.bytes)) :
    Spared pg R m g (s.mapIn pg a len prot fill) := by
  refine h.still (fun _ hr => hr) ?_ ?_ ?_
  · rfl
  · intro x hx
    rw [(changesOnly_mapIn x (hoff x hx)).1]
    exact h.use.mapped x hx
  · exact fun x hx => (changesOnly_mapIn x (hoff x hx)).2

/-- A range that was granted by `mmap`. -/
theorem Spared.granted (h : Spared pg R m g s) {a len prot : Nat} {fill : Nat → UInt8}
    (hfree : s.Free pg a len) :
    Spared pg R m (⟨a, len, false⟩ :: g) (s.mapIn pg a len prot fill) := by
  have hoff : ∀ x, R x → ¬ Touches pg.bytes a len (x / pg.bytes) :=
    fun x hx ht => h.use.mapped x hx (hfree _ ht)
  have hmapped : Spared pg R m g (s.mapIn pg a len prot fill) := h.mapIn hoff
  refine ⟨hmapped.apart, hmapped.use, ?_, ?_, hmapped.mem⟩
  · rw [List.forall_mem_cons]
    exact ⟨fun x hx hin => hoff x hx (touches_div hin.1 hin.2), h.off⟩
  · rw [List.forall_mem_cons]
    exact ⟨fun _ => hoff, h.offPage⟩

/-- A block that was granted by the heap. -/
theorem Spared.allocated (h : Spared pg R m g s) {a len : Nat}
    (hblocks : ∀ blk ∈ s.blocks, a + len ≤ blk.1 ∨ blk.1 + blk.2 ≤ a) :
    Spared pg R m (⟨a, len, true⟩ :: g) { s with blocks := (a, len) :: s.blocks } := by
  rcases h.use.block trivial with ⟨blk, hblk, hall⟩
  refine ⟨List.pairwise_cons.mpr ⟨hblocks, h.apart⟩, ⟨h.use.mapped, fun _ => ?_⟩, ?_, ?_, h.mem⟩
  · exact ⟨blk, List.mem_cons_of_mem _ hblk, hall⟩
  · rw [List.forall_mem_cons]
    refine ⟨?_, h.off⟩
    rintro x hx ⟨hlo, hhi⟩
    have hin := hall x hx
    have hsep := hblocks blk hblk
    have hlo' := hin.1
    have hhi' := hin.2
    simp only at hlo hhi
    omega
  · rw [List.forall_mem_cons]
    exact ⟨(fun hno => nomatch hno), h.offPage⟩

/-- A block that is given back. -/
theorem Spared.freed (h : Spared pg R m g s) {a len : Nat} (hheld : ⟨a, len, true⟩ ∈ g)
    (hR : ∃ x, R x) :
    Spared pg R m (g.erase ⟨a, len, true⟩) { s with blocks := s.blocks.erase (a, len) } := by
  rcases h.use.block trivial with ⟨blk, hblk, hall⟩
  have hne : blk ≠ (a, len) := by
    rintro rfl
    rcases hR with ⟨x, hx⟩
    exact h.off _ hheld x hx (hall x hx)
  refine ⟨h.apart.sublist List.erase_sublist, ⟨h.use.mapped, fun _ => ?_⟩, ?_, ?_, h.mem⟩
  · exact ⟨blk, (List.mem_erase_of_ne hne).mpr hblk, hall⟩
  · exact fun r hr => h.off r (List.mem_of_mem_erase hr)
  · exact fun r hr => h.offPage r (List.mem_of_mem_erase hr)

/-- Bytes that are written inside of what is held. -/
theorem Spared.stored (h : Spared pg R m g s) {r : Held} (hr : r ∈ g) {a len : Nat}
    (hc : r.Covers a len) {data : Nat → UInt8} :
    Spared pg R m g
      { s with mem := fun x => if a ≤ x ∧ x < a + len then data x else s.mem x } := by
  refine h.still (fun _ hr => hr) ?_ ?_ ?_
  · rfl
  · exact h.use.mapped
  · intro x hx
    apply if_neg
    rintro ⟨hlo, hhi⟩
    apply h.off r hr x hx
    rcases hc with hzero | hc
    · omega
    · exact ⟨by omega, by omega⟩

/-- The pages of a part of what is held are not pages of `R`. -/
theorem Spared.covers (h : Spared pg R m g s) {r : Held} (hr : r ∈ g)
    (hmapped : r.allocated = false) {a len : Nat} (hc : r.Covers a len) {x : Nat} (hx : R x) :
    ¬ Touches pg.bytes a len (x / pg.bytes) := by
  intro ht
  rcases hc with rfl | ⟨hlo, hhi⟩
  · exact not_touches_zero ht
  · exact h.offPage r hr hmapped x hx (ht.mono pg.pos hlo hhi)

/-- **One call.**  A call the reservation protocol allows spares what is in use. -/
theorem Spared.after (h : Spared pg R m g s) (hR : ∃ x, R x) {op : HostOp} {r : op.Res}
    (hp : Permits g op) (hans : s.Answers pg w op r) :
    Spared pg R m (hold g op r) (s.after pg w op r) := by
  cases op with
  | vm op =>
    cases op with
    | map place len prot src =>
      cases r with
      | error e => cases place <;> exact h
      | ok raw =>
        cases place with
        | anywhere => exact h.granted hans.2.2
        | hint a => exact h.granted hans.2.2
        | exact a =>
          rcases hp with ⟨held, hhead, hmapped, hc⟩
          have hraw : raw = a := hans
          subst hraw
          exact h.mapIn fun x hx => h.covers (List.mem_of_mem_head? hhead) hmapped hc hx
    | unmap a len =>
      cases r with
      | error e => exact h
      | ok u =>
        have hoff : ∀ x, R x → ¬ Touches pg.bytes a len (x / pg.bytes) :=
          fun x hx => h.offPage _ hp rfl x hx
        refine h.still (fun _ hr => List.mem_of_mem_erase hr) ?_ ?_ fun _ _ => rfl
        · rfl
        · intro x hx
          have hsame : (s.unmapped pg a len).protAt pg x = s.protAt pg x := if_neg (hoff x hx)
          change (s.unmapped pg a len).protAt pg x ≠ none
          rw [hsame]
          exact h.use.mapped x hx
    | protect a len prot =>
      cases r with
      | error e => exact h
      | ok u =>
        refine h.still (fun _ hr => hr) ?_ ?_ fun _ _ => rfl
        · rfl
        · intro x hx
          change (if Touches pg.bytes a len (x / pg.bytes) then
            (s.prot (x / pg.bytes)).map fun _ => prot else s.prot (x / pg.bytes)) ≠ none
          have hused : s.prot (x / pg.bytes) ≠ none := h.use.mapped x hx
          split
          · rw [ne_eq, Option.map_eq_none_iff]
            exact hused
          · exact hused
    | write a data =>
      rcases hp with ⟨held, hhead, hc⟩
      cases r with
      | error e => exact h
      | ok u => exact h.stored (List.mem_of_mem_head? hhead) hc
    | zero a len =>
      rcases hp with ⟨held, hhead, hc⟩
      cases r with
      | error e => exact h
      | ok u => exact h.stored (List.mem_of_mem_head? hhead) hc
    | icacheSync a len => exact h
    | allocAligned align len =>
      cases r with
      | error e => exact h
      | ok raw => exact h.allocated hans.2.2.2
    | freeAligned a len => exact h.freed hp hR
  | openPath path => exact h
  | readExactAt src off n => exact h
  | tryReserve n => exact h
  | stackWrite a data => exact h

end Spared

/-! ### Reading live memory -/

section Live

variable {pg : PageSize} {w : World} {image : MemImage} {m : Memory} {g : List Held} {s s' : Space}

/-- A part of what is read at once. -/
theorem bytesAt_peek {base len off n : Nat} (h : off + n ≤ len) :
    bytesAt (peek m base len) off n = peek m (base + off) n := by
  have hsplit : peek m base len =
      peek m base off ++
        (peek m (base + off) n ++ peek m (base + (off + n)) (len - (off + n))) := by
    rw [← Nat.add_assoc, peek_append, peek_append]
    congr 1
    omega
  rw [bytesAt, hsplit, List.drop_left' (length_peek m base off),
    List.take_left' (length_peek _ _ _)]

theorem peek_congr {m' : Memory} {a n : Nat} (h : ∀ x, Within a (a + n) x → m x = m' x) :
    peek m a n = peek m' a n := by
  induction n generalizing a with
  | zero => rfl
  | succ n ih =>
    have hhead : m a = m' a := h a ⟨Nat.le_refl a, by omega⟩
    have htail : peek m (a + 1) n = peek m' (a + 1) n := by
      apply ih
      rintro x ⟨hlo, hhi⟩
      exact h x ⟨by omega, by omega⟩
    rw [peek, peek, hhead, htail]

/-- As long as the initrd is spared, what is read from it is what it had at first. -/
theorem Spared.answers (h : Spared pg (initrdBytes image) m g s) {op : HostOp} {r : op.Res}
    (hans : initrdAnswers pg w image s op r) : s.Answers pg (initrdWorld w image m) op r := by
  cases op with
  | openPath path =>
    have hr : r = initrdOpen image path := hans
    subst hr
    cases hopen : initrdOpen image path with
    | error e => trivial
    | ok o =>
      change (initrdOpen image path).toOption = some o
      rw [hopen]
      rfl
  | readExactAt src off n =>
    cases r with
    | error e => trivial
    | ok buf =>
      have hread : ok buf.val = image.readExactAt s.mem off (List.replicate n 0) := hans
      have hvalue : off + n ≤ image.len ∧ buf.val = peek s.mem (image.base + off) n := by
        have hok := hread.symm
        simp only [MemImage.readExactAt, bind_eq_ok, okOr_eq_ok, guardErr_eq_ok,
          List.length_replicate, U64.checkedAdd_eq_some] at hok
        rcases hok with ⟨fin, ⟨-, rfl⟩, -, hle, hval⟩
        exact ⟨Nat.le_of_not_lt hle, (ok.inj hval).symm⟩
      change buf.val = bytesAt (peek m image.base image.len) off n
      rw [bytesAt_peek hvalue.1, hvalue.2]
      apply peek_congr
      rintro x ⟨hlo, hhi⟩
      exact h.mem x ⟨by omega, by omega⟩
  | vm op =>
    have hvm : s.Answers pg w (.vm op) r := hans
    cases op with
    | map place len prot src =>
      cases place <;> cases r <;> exact hvm
    | unmap a len => cases r <;> exact hvm
    | protect a len prot => cases r <;> exact hvm
    | allocAligned align len => cases r <;> exact hvm
    | _ => trivial
  | tryReserve n => trivial
  | stackWrite a data => trivial

theorem served_initrdWorld {b : Build} (hsmall : image.len < 2 ^ 64) :
    Served b (initrdWorld w image m) := by
  have hopened {path : Bytes} {o : Opened}
      (ho : (initrdWorld w image m).lookup path = some o) : o = ⟨⟨0, some image.len⟩, none⟩ := by
    change (initrdOpen image path).toOption = some o at ho
    unfold initrdOpen at ho
    split at ho
    · cases ho
    · exact (Option.some.inj ho).symm
  constructor
  · intro path o ho
    rw [hopened ho]
    exact congrArg some (length_peek m image.base image.len).symm
  · intro path o _
    exact (length_peek m image.base image.len).trans_lt hsmall
  · intro path o ho fd hfd
    rw [hopened ho] at hfd
    cases hfd
  · refine Or.inr ?_
    intro path o ho hmapped
    rw [hopened ho] at hmapped
    exact nomatch hmapped.2

theorem processAfter_initrdWorld (op : HostOp) (r : op.Res) :
    processAfter pg w s op r = processAfter pg (initrdWorld w image m) s op r := by
  cases op with
  | vm op =>
    cases op with
    | map place len prot src =>
      cases r with
      | error e => rfl
      | ok raw => cases src <;> rfl
    | unmap a len => cases r <;> rfl
    | protect a len prot => cases r <;> rfl
    | write a data => cases r <;> rfl
    | zero a len => cases r <;> rfl
    | allocAligned align len => cases r <;> rfl
    | freeAligned a len => rfl
    | icacheSync a len => rfl
  | stackWrite a data => cases r <;> rfl
  | openPath path => rfl
  | readExactAt src off n => rfl
  | tryReserve n => rfl

/-- **A load from the initrd** is one from a file with the bytes the initrd had at first. -/
theorem wp_initrdLoaded {b : Build} (hapart : BlocksApart s)
    (huse : InUse b.page s (initrdBytes image) True) (hlen : image.len ≠ 0)
    (hsmall : image.len < 2 ^ 64) :
    wp (initrdStep b.page w image) (fun _ _ => True) (loadProgram b INITRD)
      (post (fun s' p => LoadedOnto b (initrdWorld w image s.mem) INITRD s p s')
        (fun _ _ => True) True) s := by
  have hR : ∃ x, initrdBytes image x := ⟨image.base, Nat.le_refl _, by omega⟩
  have hserved : Served b (initrdWorld w image s.mem) := served_initrdWorld hsmall
  have hstart : Spared b.page (initrdBytes image) s.mem [] s :=
    ⟨hapart, huse, (fun _ hr => nomatch hr), (fun _ hr => nomatch hr), fun _ _ => rfl⟩
  have hload := (calls_loadProgram INITRD).wp
    (fun _ _ _ _ h => ⟨granted_of_answers h.1, h.2.1⟩) (wp_loadedOnto hserved hapart INITRD)
  have hprotocol : wp (Protocol b.page (2 ^ 64)) Permits (loadProgram b INITRD) _ [] :=
    wp_loadProgram b INITRD
  have hboth := wp_ghost (J := Spared b.page (initrdBytes image) s.mem) ?_ hstart hprotocol hload
  · apply wp_mono (wp_pre_mono (wp_exchange hboth ?_) fun _ _ _ => trivial) fun _ _ h => h.1.1
    rintro s op r s' ⟨⟨-, hoff⟩, g, hspared, -⟩ ⟨hans, hnonzero, hs'⟩
    refine ⟨hspared.answers hans, hnonzero, ?_⟩
    rw [hs']
    exact processAfter_initrdWorld op r
  · intro g s op r s' hspared hpermits hpre hstep
    refine ⟨hold g op r, ⟨granted_of_answers hstep.1, rfl⟩, ?_⟩
    rw [(processStep_offStack hpre.2 hstep).1.2]
    exact hspared.after hR hpermits hstep.1

end Live

/-! ### A machine with an initrd -/

end ElfLoader.Initrd
