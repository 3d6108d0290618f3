import ElfLoader.Etc

/-!
# The address of a device

`uk_netdev_ip4addr_get` copies the part of a CIDR address before the `/` into an array
of 16 characters.  Its check lets through a part of 16, which has no room for the
terminator.
-/

namespace ElfLoader.Etc

open ElfLoader Outcome Prog Conffile

/-! ### What it is for -/

/-- The part of the CIDR address before its first `/`. -/
def cidrAddr (nd : Netdev) : Option Bytes :=
  (nd.einfo .cidr).bind fun s =>
    if Util.SLASH ∈ s.val then some (s.val.takeWhile (· ≠ Util.SLASH)) else none

/-- A part that `255.255.255.255` could be, and that fits with its terminator. -/
def addrFits (t : Bytes) : Bool := decide (7 ≤ t.length ∧ t.length + 1 ≤ 16)

/-- The address a device has: of the CIDR address what fits, else the legacy address. -/
def ip4addr (nd : Netdev) : Option Bytes :=
  match (cidrAddr nd).filter addrFits with
  | some t => some t
  | none => ((nd.einfo .addr).map Subtype.val).filter fun t => !t.isEmpty

/-- What is returned: `NULL` for no address, else a pointer to its characters. -/
def Returns (w : World) : Option Ptr → Option Bytes → Prop
  | none, none => True
  | some p, some t => Shows (w.mem p.object) p.off (t ++ [0])
  | _, _ => False

def StoresIp4 (i : Nat) : PosixOp → Prop
  | .store p _ => p.object = .ip4buf ∧ p.off = i
  | _ => False

/-- The address is extracted inside the array: the function returns, and no run of it
    stores beyond the array or returns something else. -/
structure Extracts (nd : Netdev) : Prop where
  returns : ∀ w, ∃ tr w' p, Reaches posix w (ukNetdevIp4addrGet nd) tr w' (.done (.ok p))
  stores : ∀ w tr w' q, Reaches posix w (ukNetdevIp4addrGet nd) tr w' q →
    ∀ e ∈ tr, ∀ i, StoresIp4 i e.1 → i < 16
  result : ∀ w tr w' p, Reaches posix w (ukNetdevIp4addrGet nd) tr w' (.done (.ok p)) →
    Returns w' p (ip4addr nd)

/-! ### The parts of the CIDR address -/

section Parts

variable {nd : Netdev}

theorem strchr_eq (s : CString) (c : UInt8) :
    strchr s c = if c ∈ s.val then some (s.val.takeWhile (· ≠ c)).length else none := by
  rcases s with ⟨s, hs⟩
  simp only [strchr]
  clear hs
  induction s with
  | nil => rfl
  | cons x xs ih =>
    by_cases hx : x = c
    · simp [hx, List.findIdx?_cons]
    · have hx' : ¬ c = x := fun h => hx h.symm
      rw [List.findIdx?_cons, ih]
      by_cases hmem : c ∈ xs
      · simp [hx, hmem]
      · simp [hx, hx', hmem]

theorem given_map_val (property : Einfo) :
    (nd.given property).map Subtype.val =
      ((nd.einfo property).map Subtype.val).filter fun t => !t.isEmpty := by
  unfold Netdev.given
  cases nd.einfo property with
  | none => rfl
  | some s =>
    rcases s with ⟨s, hs⟩
    cases s with
    | nil => rfl
    | cons x xs => rfl

/-- Without a part before a `/` the legacy address is returned. -/
theorem ukNetdevIp4addrGet_of_none (h : cidrAddr nd = none) : ukNetdevIp4addrGet nd = legacyAddr nd := by
  unfold ukNetdevIp4addrGet
  cases hcidr : nd.given .cidr with
  | none => rfl
  | some s =>
    have hs : nd.einfo .cidr = some s := (Option.filter_eq_some_iff.mp hcidr).1
    have hslash : ¬ Util.SLASH ∈ s.val := by
      intro hmem
      simp [cidrAddr, hs, hmem] at h
    dsimp only
    rw [strchr_eq, if_neg hslash]

/-- With one, its length decides. -/
theorem ukNetdevIp4addrGet_of_some {t : Bytes} (h : cidrAddr nd = some t) :
    ∃ s : CString, t <+: s.val ∧
      ukNetdevIp4addrGet nd = if t.length > 16 ∨ t.length < 7 then legacyAddr nd else copyAddr s t.length := by
  rcases Option.bind_eq_some_iff.mp h with ⟨s, hs, ht⟩
  split at ht
  swap
  · cases ht
  rename_i hslash
  cases ht
  have hgiven : nd.given .cidr = some s := by
    apply Option.filter_eq_some_iff.mpr
    constructor
    · exact hs
    · have hne : s.val ≠ [] := List.ne_nil_of_mem hslash
      simpa using hne
  refine ⟨s, List.takeWhile_prefix _, ?_⟩
  unfold ukNetdevIp4addrGet
  rw [hgiven]
  dsimp only
  rw [strchr_eq, if_pos hslash]

end Parts

/-! ### The copy -/

section Copy

variable {s : CString} {n : Nat} {w : World}

/-- A store among the first `n` characters of the array. -/
def StoreBelow (n : Nat) (op : PosixOp) : Prop :=
  ∃ i c, op = .store ((start .ip4buf).add i) c ∧ i < n

/-- One more character. -/
theorem shows_stored {t : Bytes} {c : UInt8} (h : Shows w.ip4buf 0 t) (ht : t.length = n) :
    Shows (w.stored ((start .ip4buf).add n) [c]).ip4buf 0 (t ++ [c]) := by
  subst ht
  exact h.poke_behind

/-- From index `i` on, with the characters before it in the array. -/
theorem wp_strncpy_from {i m : Nat} (hi : i + m ≤ n) (hn : n ≤ s.val.length)
    (hshows : Shows w.ip4buf 0 (s.val.take i)) :
    wp posix (fun _ op => StoreBelow n op)
      ((List.range' i m).forM fun i => get (.store ((start .ip4buf).add i) (s.val.getD i 0)))
      (post (fun w' _ => Shows w'.ip4buf 0 (s.val.take (i + m))) (fun _ _ => False) False) w := by
  induction m generalizing i w with
  | zero => exact hshows
  | succ m ih =>
    rw [List.range'_succ]
    apply wp_get_bind.mpr
    constructor
    · exact ⟨i, _, rfl, by omega⟩
    intro _ w₁ hw₁
    have htake : s.val.take (i + 1) = s.val.take i ++ [s.val.getD i 0] := by
      have hlt : i < s.val.length := by omega
      rw [List.take_add_one, List.getD_eq_getElem?_getD, List.getElem?_eq_getElem hlt]
      rfl
    have hshows₁ : Shows w₁.ip4buf 0 (s.val.take (i + 1)) := by
      rw [htake, show w₁ = _ from hw₁]
      exact shows_stored hshows (List.length_take_of_le (by omega))
    have hrest := ih (by omega : i + 1 + m ≤ n) hshows₁
    rw [Nat.add_right_comm i 1 m] at hrest
    exact hrest

theorem wp_strncpy (hn : n ≤ s.val.length) :
    wp posix (fun _ op => StoreBelow n op) (strncpy (start .ip4buf) s n)
      (post (fun w' _ => Shows w'.ip4buf 0 (s.val.take n)) (fun _ _ => False) False) w := by
  have hloop := wp_strncpy_from (w := w) (i := 0) (Nat.zero_add n).le hn shows_nil
  rw [Nat.zero_add] at hloop
  rw [strncpy, List.range_eq_range']
  exact hloop

theorem wp_copyAddr (hn : n ≤ s.val.length) :
    wp posix (fun _ op => StoreBelow (n + 1) op) (copyAddr s n)
      (post (fun w' p => p = some (start .ip4buf) ∧ Shows w'.ip4buf 0 (s.val.take n ++ [0]))
        (fun _ _ => False) False) w := by
  have hcopy : wp posix (fun _ op => StoreBelow (n + 1) op) (strncpy (start .ip4buf) s n)
      (post (fun w' _ => Shows w'.ip4buf 0 (s.val.take n)) (fun _ _ => False) False) w := by
    apply wp_pre_mono (wp_strncpy hn)
    intro _ op hstore
    rcases hstore with ⟨i, c, hop, hi⟩
    exact ⟨i, c, hop, Nat.lt_succ_of_lt hi⟩
  apply wp_bind_post hcopy
  intro w₁ _ hshows
  apply wp_get_bind.mpr
  constructor
  · exact ⟨n, 0, rfl, Nat.lt_succ_self n⟩
  intro _ w₂ hw₂
  constructor
  · rfl
  · rw [show w₂ = _ from hw₂]
    exact shows_stored hshows (List.length_take_of_le hn)

theorem wp_legacyAddr {nd : Netdev} :
    wp posix (fun _ op => StoreBelow 0 op) (legacyAddr nd)
      (post (fun w' p => Returns w' p (((nd.einfo .addr).map Subtype.val).filter fun t => !t.isEmpty))
        (fun _ _ => False) False) w := by
  rw [← given_map_val]
  unfold legacyAddr
  cases nd.given .addr with
  | none => trivial
  | some s => exact shows_poke

theorem StoreBelow.mono {m : Nat} {op : PosixOp} (h : StoreBelow n op) (hm : n ≤ m) :
    StoreBelow m op := by
  rcases h with ⟨i, c, hop, hi⟩
  exact ⟨i, c, hop, Nat.lt_of_lt_of_le hi hm⟩

/-- A store is always answered. -/
theorem StoreBelow.answered {op : PosixOp} (h : StoreBelow n op) (w : World) :
    ∃ r w', posix w op r w' := by
  rcases h with ⟨i, c, hop, -⟩
  subst hop
  exact ⟨(), _, rfl⟩

end Copy

/-! ### The whole function -/

section Whole

variable {nd : Netdev}

/-- The inputs the check lets through although there is no room for the terminator. -/
def Unterminated (nd : Netdev) : Prop := ∃ t, cidrAddr nd = some t ∧ t.length = 16

/-- **Everywhere else** the array is kept to, and the address is returned. -/
theorem wp_ukNetdevIp4addrGet (h : ¬ Unterminated nd) (w : World) :
    wp posix (fun _ op => StoreBelow 16 op) (ukNetdevIp4addrGet nd)
      (post (fun w' p => Returns w' p (ip4addr nd)) (fun _ _ => False) False) w := by
  have hlegacy (hnot : (cidrAddr nd).filter addrFits = none) :
      wp posix (fun _ op => StoreBelow 16 op) (legacyAddr nd)
        (post (fun w' p => Returns w' p (ip4addr nd)) (fun _ _ => False) False) w := by
    rw [ip4addr, hnot]
    exact wp_pre_mono wp_legacyAddr fun _ _ hop => hop.mono (Nat.zero_le 16)
  cases hcidr : cidrAddr nd with
  | none =>
    rw [ukNetdevIp4addrGet_of_none hcidr]
    exact hlegacy (by rw [hcidr]; rfl)
  | some t =>
    have hlen : t.length ≠ 16 := fun ht => h ⟨t, hcidr, ht⟩
    rcases ukNetdevIp4addrGet_of_some hcidr with ⟨s, hprefix, heq⟩
    rw [heq]
    split
    · rename_i hout
      apply hlegacy
      rw [hcidr, Option.filter_some, if_neg]
      simp only [addrFits, decide_eq_true_eq]
      omega
    · rename_i hin
      have hfits : addrFits t = true := by
        simp only [addrFits, decide_eq_true_eq]
        omega
      have haddr : ip4addr nd = some t := by rw [ip4addr, hcidr, Option.filter_some, if_pos hfits]
      have htake : s.val.take t.length = t := (List.prefix_iff_eq_take.mp hprefix).symm
      rw [haddr]
      apply wp_pre_mono (wp_post_mono (wp_copyAddr hprefix.length_le) ?_ fun _ _ h => h)
      · exact fun _ _ hop => hop.mono (by omega)
      · intro w' p hdone
        rcases hdone with ⟨hp, hshows⟩
        rw [hp, ← htake]
        exact hshows

/-- Sixteen characters and their terminator. -/
theorem Unterminated.stores_beyond (h : Unterminated nd) (w : World) :
    ∃ tr w' q, Reaches posix w (ukNetdevIp4addrGet nd) tr w' q ∧ ∃ e ∈ tr, StoresIp4 16 e.1 := by
  rcases h with ⟨t, hcidr, ht⟩
  rcases ukNetdevIp4addrGet_of_some hcidr with ⟨s, hprefix, heq⟩
  rw [heq, if_neg (by omega)]
  rcases exists_run_of_wp (wp_strncpy hprefix.length_le) fun w op hop => hop.answered w with
    ⟨tr, w₁, r, hcopy, hr⟩
  cases r with
  | ok u =>
    have hstore : posix w₁ (.store ((start .ip4buf).add t.length) 0) ()
        (w₁.stored ((start .ip4buf).add t.length) [0]) := rfl
    refine ⟨_, _, _, hcopy.bind (reaches_get hstore (.refl _ _)), _,
      List.mem_append_right tr List.mem_cons_self, rfl, ?_⟩
    simpa [start, Ptr.add] using ht
  | err e => exact hr.elim
  | panic => exact hr.elim

theorem Unterminated.not_extracts (h : Unterminated nd) : ¬ Extracts nd := by
  intro hextracts
  rcases h.stores_beyond blank with ⟨tr, w', q, hrun, e, he, hstore⟩
  exact absurd (hextracts.stores _ _ _ _ hrun e he 16 hstore) (Nat.lt_irrefl 16)

/-- **The address is extracted inside its array** exactly unless there are 16
    characters before the `/`. -/
theorem extracts_iff (nd : Netdev) : Extracts nd ↔ ¬ Unterminated nd := by
  constructor
  · exact fun hextracts hunterminated => hunterminated.not_extracts hextracts
  · intro h
    constructor
    · intro w
      rcases exists_run_of_wp (wp_ukNetdevIp4addrGet h w) fun w op hop => hop.answered w with
        ⟨tr, w', r, hrun, hr⟩
      cases r with
      | ok p => exact ⟨tr, w', p, hrun⟩
      | err e => exact hr.elim
      | panic => exact hr.elim
    · intro w tr w' q hrun e he i hstore
      have hbelow := hrun.forall_event (wp_ukNetdevIp4addrGet h w) e he
      rcases hbelow with ⟨j, c, hop, hj⟩
      rw [hop] at hstore
      have hij : 0 + j = i := hstore.2
      omega
    · intro w tr w' p hrun
      exact wp_reaches (wp_ukNetdevIp4addrGet h w) hrun

end Whole

/-- A device with the CIDR address `192.168.100.1000/24` and nothing else. -/
def sixteenChars : Netdev where
  einfo
    | .cidr => some ⟨ascii "192.168.100.1000/24", by decide +kernel⟩
    | _ => none

/-- The terminator is stored behind the array. -/
theorem sixteen_chars_overflow :
    (∃ tr w' q, Reaches posix blank (ukNetdevIp4addrGet sixteenChars) tr w' q ∧
      ∃ e ∈ tr, StoresIp4 16 e.1) ∧ ¬ Extracts sixteenChars := by
  have hunterminated : Unterminated sixteenChars :=
    ⟨ascii "192.168.100.1000", by decide +kernel, by decide +kernel⟩
  constructor
  · exact hunterminated.stores_beyond blank
  · exact hunterminated.not_extracts

end ElfLoader.Etc
