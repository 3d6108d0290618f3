import ElfLoader.Implement
import ElfLoader.Ip4Addr
import ElfLoader.Printed

/-!
# What the generators print

The text of each file in `/etc`, as a function of the network devices.  Unless a call fails,
what a generator appends to its file is this text: every line is appended as a whole, as long
as it fits the buffer it is formatted in.
-/

namespace ElfLoader.Etc

open ElfLoader Outcome Prog Conffile

/-- The calls of what is printed through `fd`. -/
def Printing (fd : Int32) : PosixOp → Prop
  | .write fd' _ _ => fd' = fd
  | .vsnprintf .. => True
  | .store .. => True
  | .cstr _ => True
  | _ => False

/-- Unless it fails, `p` appends `text` to what is open as `fd`. -/
def Adds (fd : Int32) (p : CProg Int32) (text : Bytes) : Prop :=
  ∀ w, wp posix (fun _ op => Printing fd op) p
    (post (fun w' rc => ¬ rc < 0 → w'.file fd = w.file fd ++ text) (fun _ _ => True) True) w

section Adds

variable {fd : Int32} {turns : Nat}

theorem adds_pure (rc : Int32) : Adds fd (pure rc) [] :=
  fun w _ => (List.append_nil (w.file fd)).symm

theorem Adds.orOut {p rest : CProg Int32} {text more : Bytes} (hp : Adds fd p text)
    (hrest : Adds fd rest more) : Adds fd (orOut p rest) (text ++ more) := by
  intro w
  apply wp_bind_post (hp w)
  intro w₁ rc hrc
  split
  · rename_i hneg
    exact fun hnot => absurd hneg hnot
  · rename_i hnonneg
    apply wp_post_mono (hrest w₁) ?_ fun _ _ h => h
    intro w' rc' hrc' hnot
    rw [hrc' hnot, hrc hnonneg, List.append_assoc]

/-- `cf_write` answers 0 or an error number, and keeps to its descriptor. -/
theorem wp_cfWrite_printing (p : Ptr) (n : UInt64) (w : World) :
    wp posix (fun _ op => Printing fd op) (cfWrite fd turns p n)
      (post (fun _ rc => ¬ 0 < rc) (fun _ _ => True) True) w := by
  induction turns generalizing p n w with
  | zero => trivial
  | succ turns ih =>
    rw [cfWrite]
    apply wp_get_bind.mpr
    refine ⟨rfl, ?_⟩
    rintro rc w₁ ⟨hlow, -, -⟩
    have hdone : ¬ (0 : Int32) < 0 := Int32.lt_irrefl
    split
    · rename_i hneg
      have hint : rc.toInt < 0 := Int64.lt_iff_toInt_lt.mp hneg
      split
      · intro hpos
        rw [Int32.lt_iff_toInt_lt, Int64.toInt_toInt32, Int.bmod_eq_of_le (by omega) (by omega)]
          at hpos
        have hzero : (0 : Int32).toInt = 0 := rfl
        omega
      · split
        · exact ih p n w₁
        · exact hdone
    · dsimp only
      split
      · exact ih _ _ w₁
      · exact hdone

theorem eq_zero_of_not {rc : Int32} (hneg : ¬ rc < 0) (hpos : ¬ 0 < rc) : rc = 0 :=
  Int32.le_antisymm (Int32.not_lt.mp hpos) (Int32.not_lt.mp hneg)

/-- A text that fits its buffer is printed. -/
theorem adds_cfNprintf {text : Bytes} (h : Printable LINE.toNat text) :
    Adds fd (cfNprintf turns fd LINE text) text := by
  intro w
  have hsmall : wp posix (fun _ op => Printing fd op) (cfNprintf turns fd LINE text)
      (post (fun w' rc => ¬ 0 < rc ∧ (¬ rc < 0 → text.length < LINE.toNat)) (fun _ _ => True) True)
      w := by
    apply wp_get_bind.mpr
    refine ⟨trivial, ?_⟩
    intro strlen w₁ hprint
    have hfits : ¬ strlen < 0 → text.length < LINE.toNat := by
      intro hnonneg
      rcases hprint with ⟨hneg, -⟩ | ⟨hlen, -⟩
      · exact absurd hneg hnonneg
      · rcases h with hlt | hlong
        · exact hlt
        · have hint := Int32.toInt_lt strlen
          omega
    split
    · rename_i hle
      exact ⟨Int32.not_lt.mpr hle, hfits⟩
    · rename_i hmore
      have hnonneg : ¬ strlen < 0 := fun hneg => hmore (Int32.le_of_lt hneg)
      apply wp_post_mono (wp_cfWrite_printing _ _ w₁) ?_ fun _ _ h => h
      exact fun _ rc hrc => ⟨hrc, fun _ => hfits hnonneg⟩
  have hboth := wp_and hsmall (wp_cfVnprintf fd turns h w)
  apply wp_pre_mono (wp_mono hboth ?_) fun _ _ hop => hop.1
  rintro w' (rc | e | -) ⟨hrc, hfile⟩
  · intro hnonneg
    rw [hfile (eq_zero_of_not hnonneg hrc.1)]
    rw [List.take_of_length_le (Nat.le_sub_one_of_lt (hrc.2 hnonneg))]
  · trivial
  · trivial

theorem adds_cfStrcpy {s : Bytes} (hs : s.length < 2 ^ 64) :
    Adds fd (cfStrcpy turns fd s) s := by
  unfold cfStrcpy
  split
  · rename_i hempty
    rw [List.eq_nil_of_length_eq_zero hempty]
    exact adds_pure 0
  · intro w
    have hlen : (UInt64.ofNat s.length).toNat = s.length := UInt64.toNat_ofNat_of_lt' hs
    have hboth := wp_and (wp_cfWrite_printing (start (.text s)) (.ofNat s.length) w)
      (wp_cfWrite fd turns (start (.text s)) (.ofNat s.length) w)
    apply wp_pre_mono (wp_mono hboth ?_) fun _ _ hop => hop.1
    rintro w' (rc | e | -) ⟨hrc, hwritten⟩
    · intro hnonneg
      rcases hwritten with ⟨k, -, rfl, hall⟩
      have htext : w.read (start (.text s)) s.length = s := (shows_append.mp shows_poke).1
      rw [World.file_appended, hall (eq_zero_of_not hnonneg hrc), hlen, htext]
    · trivial
    · trivial

end Adds

/-! ### The texts of the files -/

/-- What the devices have for a property. -/
def givens (property : Einfo) : Netdevs → List Bytes
  | [] => []
  | none :: rest => givens property rest
  | some nd :: rest => ((nd.given property).map Subtype.val).toList ++ givens property rest

/-- The name servers, device by device. -/
def servers : Netdevs → List Bytes
  | [] => []
  | none :: rest => servers rest
  | some nd :: rest =>
      ((nd.given .dns0).map Subtype.val).toList ++ ((nd.given .dns1).map Subtype.val).toList ++
        servers rest

def resolvText (devs : Netdevs) : Bytes :=
  (servers devs).flatMap nameserverLine ++
    match givens .domain devs with
    | [] => []
    | domain :: rest =>
        ascii "search" ++ (domain :: rest).flatMap searchWord ++ ascii "\n" ++ domainLine domain

/-- The entry of a device that has an address and a name. -/
def Netdev.hostText (nd : Netdev) : Bytes :=
  match ip4addr nd, nd.given .hostname, nd.given .domain with
  | some ip4, some hostname, none => hostLine ip4 hostname.val
  | some ip4, some hostname, some domain => fqdnLine ip4 hostname.val domain.val
  | _, _, _ => []

def hostTexts : Netdevs → Bytes
  | [] => []
  | none :: rest => hostTexts rest
  | some nd :: rest => nd.hostText ++ hostTexts rest

def hostsText (c : Config) (devs : Netdevs) : Bytes :=
  (if c.etchostsLocalhost4 then ascii "127.0.0.1\tlocalhost\n" else []) ++ hostTexts devs

/-- Everything that may be printed for a device fits its buffer, and its address its array. -/
structure Netdev.Fits (nd : Netdev) : Prop where
  server : ∀ property ∈ [Einfo.dns0, .dns1], ∀ s ∈ nd.given property,
    Printable LINE.toNat (nameserverLine s.val)
  search : ∀ s ∈ nd.given .domain, Printable LINE.toNat (searchWord s.val)
  domain : ∀ s ∈ nd.given .domain, Printable LINE.toNat (domainLine s.val)
  host : Printable LINE.toNat nd.hostText
  hostname : ∀ s ∈ nd.given .hostname, Printable LINE.toNat (hostnameLine s.val)
  addr : ¬ Unterminated nd

section Texts

variable {fd : Int32} {turns : Nat} {devs : Netdevs} {nd : Netdev}

theorem adds_printGiven {line : Bytes → Bytes} {s : Option CString}
    (h : ∀ t ∈ s, Printable LINE.toNat (line t.val)) :
    Adds fd (printGiven turns fd line s) ((s.map Subtype.val).toList.flatMap line) := by
  cases s with
  | none => exact adds_pure 0
  | some t =>
    have htext : ((some t).map Subtype.val).toList.flatMap line = line t.val :=
      List.flatMap_singleton _ _
    rw [htext]
    exact adds_cfNprintf (h t rfl)

theorem adds_printNameservers (h : ∀ nd, some nd ∈ devs → nd.Fits) :
    Adds fd (printNameservers turns fd devs) ((servers devs).flatMap nameserverLine) := by
  induction devs with
  | nil => exact adds_pure 0
  | cons dev rest ih =>
    have hrest := ih fun nd hnd => h nd (List.mem_cons_of_mem dev hnd)
    cases dev with
    | none => exact hrest
    | some nd =>
      have hnd := h nd List.mem_cons_self
      rw [servers, List.flatMap_append, List.flatMap_append, List.append_assoc]
      apply (adds_printGiven (hnd.server .dns0 (by simp))).orOut
      exact (adds_printGiven (hnd.server .dns1 (by simp))).orOut hrest

theorem adds_printSearch (h : ∀ nd, some nd ∈ devs → nd.Fits) :
    Adds fd (printSearch turns fd devs) ((givens .domain devs).flatMap searchWord) := by
  induction devs with
  | nil => exact adds_pure 0
  | cons dev rest ih =>
    have hrest := ih fun nd hnd => h nd (List.mem_cons_of_mem dev hnd)
    cases dev with
    | none => exact hrest
    | some nd =>
      rw [givens, List.flatMap_append]
      exact (adds_printGiven (h nd List.mem_cons_self).search).orOut hrest

/-- The primary string of a property is the first one that is given. -/
theorem find_eq_head (property : Einfo) (devs : Netdevs) :
    ((ukNetdevFindEinfo property devs).bind (·.einfo property)).map Subtype.val =
      (givens property devs).head? := by
  induction devs with
  | nil => rfl
  | cons dev rest ih =>
    cases dev with
    | none => exact ih
    | some nd =>
      rw [ukNetdevFindEinfo, givens]
      cases hgiven : nd.given property with
      | none => exact ih
      | some s =>
        have hs : nd.einfo property = some s := (Option.filter_eq_some_iff.mp hgiven).1
        simp [hs]

/-- It is what some device has. -/
theorem find_given {property : Einfo} {s : CString}
    (h : (ukNetdevFindEinfo property devs).bind (·.einfo property) = some s) :
    ∃ nd, some nd ∈ devs ∧ nd.given property = some s := by
  induction devs with
  | nil => cases h
  | cons dev rest ih =>
    have hrest (h : (ukNetdevFindEinfo property rest).bind (·.einfo property) = some s) :
        ∃ nd, some nd ∈ dev :: rest ∧ nd.given property = some s := by
      rcases ih h with ⟨nd, hnd, hs⟩
      exact ⟨nd, List.mem_cons_of_mem dev hnd, hs⟩
    cases dev with
    | none => exact hrest h
    | some nd =>
      rw [ukNetdevFindEinfo] at h
      cases hgiven : nd.given property with
      | none =>
        rw [hgiven] at h
        exact hrest h
      | some t =>
        rw [hgiven] at h
        have ht : nd.einfo property = some t := (Option.filter_eq_some_iff.mp hgiven).1
        have hst : nd.einfo property = some s := h
        rw [ht] at hst
        cases hst
        exact ⟨nd, List.mem_cons_self, hgiven⟩

theorem adds_printResolvconf (h : ∀ nd, some nd ∈ devs → nd.Fits) :
    Adds fd (printResolvconf turns devs fd) (resolvText devs) := by
  apply (adds_printNameservers h).orOut
  have hhead := find_eq_head .domain devs
  unfold printDomains
  split
  · rename_i hnone
    rw [hnone] at hhead
    have hempty : givens .domain devs = [] := List.head?_eq_none_iff.mp hhead.symm
    rw [hempty]
    exact adds_pure 0
  · rename_i domain hdomain
    rw [hdomain] at hhead
    rcases List.head?_eq_some_iff.mp hhead.symm with ⟨rest, hgivens⟩
    rcases find_given hdomain with ⟨nd, hnd, hgiven⟩
    have hsearch : Adds fd (printSearch turns fd devs)
        ((domain.val :: rest).flatMap searchWord) := hgivens ▸ adds_printSearch h
    rw [hgivens]
    simp only [List.append_assoc]
    apply (adds_cfStrcpy (by decide)).orOut
    apply hsearch.orOut
    apply (adds_cfStrcpy (by decide)).orOut
    have hline : Adds fd (cfNprintf turns fd LINE (domainLine domain.val))
        (domainLine domain.val) := adds_cfNprintf ((h nd hnd).domain domain hgiven)
    have hlast := hline.orOut (adds_pure 0)
    rw [List.append_nil] at hlast
    exact hlast

/-- A C string is what is in memory up to the first zero. -/
theorem cstr_unique {m : Memory} {a : Nat} {s t : Bytes} (hs : Shows m a (s ++ [0])) (hs0 : 0 ∉ s)
    (ht : Shows m a (t ++ [0])) (ht0 : 0 ∉ t) : s = t := by
  have hread : cstrAt m (s.length + t.length + 1) a = some s :=
    cstrAt_of_shows hs hs0 (by omega)
  rw [cstrAt_of_shows ht ht0 (by omega)] at hread
  exact (Option.some.inj hread).symm

theorem ip4addr_nul {t : Bytes} (h : ip4addr nd = some t) : 0 ∉ t := by
  have hcidr : ∀ t, cidrAddr nd = some t → 0 ∉ t := by
    intro t ht
    rcases ukNetdevIp4addrGet_of_some ht with ⟨s, hpre, -⟩
    exact fun hzero => s.property (hpre.subset hzero)
  unfold ip4addr at h
  split at h
  · rename_i t' ht'
    cases h
    exact hcidr _ (Option.filter_eq_some_iff.mp ht').1
  · rcases Option.map_eq_some_iff.mp (Option.filter_eq_some_iff.mp h).1 with ⟨s, -, rfl⟩
    exact s.property

/-- Looking up an address prints nothing. -/
theorem wp_addr (h : nd.Fits) (w : World) :
    wp posix (fun _ op => Printing fd op) (ukNetdevIp4addrGet nd)
      (post (fun w' p => Returns w' p (ip4addr nd) ∧ w'.file = w.file) (fun _ _ => True) True) w := by
  have hget : wp (fun w op r w' => StoreBelow 16 op ∧ posix w op r w')
      (fun _ op => StoreBelow 16 op) (ukNetdevIp4addrGet nd) _ w :=
    wp_handler_mono (wp_ukNetdevIp4addrGet h.addr w) fun _ _ _ _ h => h.2
  have hkept := wp_keeps (J := fun w' => w'.file = w.file) ?_ hget rfl
  · have hposix : wp posix (fun _ op => StoreBelow 16 op) (ukNetdevIp4addrGet nd) _ w :=
      wp_exchange hkept fun _ _ _ _ hop h => ⟨hop, h⟩
    apply wp_pre_mono (wp_mono hposix ?_) ?_
    · rintro w' (p | e | -) ⟨hret, hfile⟩
      · exact ⟨hret, hfile⟩
      · trivial
      · trivial
    · rintro _ _ ⟨i, c, rfl, -⟩
      trivial
  · rintro w₁ op r w₂ hfile ⟨⟨i, c, rfl, -⟩, hstore⟩
    have hw₂ : w₂ = w₁.stored ((start .ip4buf).add i) [c] := hstore
    rw [hw₂, World.file_stored]
    exact hfile

theorem adds_printHost (h : nd.Fits) : Adds fd (printHost turns fd nd) nd.hostText := by
  intro w
  apply wp_bind_post (wp_addr h w)
  rintro w₁ p ⟨hret, hfile⟩
  have hhost := h.host
  unfold Netdev.hostText at hhost ⊢
  cases haddr : ip4addr nd with
  | none =>
    rw [haddr] at hret
    cases p with
    | none => exact fun _ => by rw [hfile]; exact (List.append_nil _).symm
    | some p => exact hret.elim
  | some ip4 =>
    rw [haddr] at hret hhost
    cases p with
    | none => exact hret.elim
    | some p =>
      dsimp only
      cases hname : nd.given .hostname with
      | none => exact fun _ => by rw [hfile]; exact (List.append_nil _).symm
      | some hostname =>
        rw [hname] at hhost
        apply wp_get_bind.mpr
        refine ⟨trivial, ?_⟩
        rintro ip4' _ ⟨⟨hshows, hnul⟩, rfl⟩
        have hip4 : ip4' = ip4 := cstr_unique hshows hnul hret (ip4addr_nul haddr)
        subst hip4
        rw [← hfile]
        cases hdomain : nd.given .domain with
        | none =>
          rw [hdomain] at hhost
          exact adds_cfNprintf hhost _
        | some domain =>
          rw [hdomain] at hhost
          exact adds_cfNprintf hhost _

theorem adds_printHosts (h : ∀ nd, some nd ∈ devs → nd.Fits) :
    Adds fd (printHosts turns fd devs) (hostTexts devs) := by
  induction devs with
  | nil => exact adds_pure 0
  | cons dev rest ih =>
    have hrest := ih fun nd hnd => h nd (List.mem_cons_of_mem dev hnd)
    cases dev with
    | none => exact hrest
    | some nd => exact (adds_printHost (h nd List.mem_cons_self)).orOut hrest

theorem adds_printEtcHosts (c : Config) (h : ∀ nd, some nd ∈ devs → nd.Fits) :
    Adds fd (printEtcHosts c turns devs fd) (hostsText c devs) := by
  refine Adds.orOut ?_ (adds_printHosts h)
  unfold printLocalhost
  split
  · exact adds_cfStrcpy (by decide)
  · exact adds_pure 0

theorem adds_printHostname {hostname : Bytes} (h : Printable LINE.toNat (hostnameLine hostname)) :
    Adds fd (printHostname turns hostname fd) (hostnameLine hostname) := by
  intro w
  apply wp_bind_post (adds_cfNprintf h w)
  intro w' rc hrc
  split
  · rename_i hpos
    exact fun _ => hrc fun hneg => Int32.lt_asymm hpos hneg
  · exact hrc

end Texts

end ElfLoader.Etc
