import ElfLoader.Conffile
import ElfLoader.Util

/-!
# The files in `/etc` (`autogen/etc.c`)

Three generators, each of which creates a file, prints a line for each network device
that has something to say and closes the file.
-/

namespace ElfLoader.Etc

open ElfLoader Conffile

/-- The bytes of a zero-terminated string. -/
abbrev CString := { s : Bytes // 0 ∉ s }

/-- The properties `uk_netdev_einfo_get` is asked for. -/
inductive Einfo where
  | cidr
  | addr
  | dns0
  | dns1
  | domain
  | hostname
deriving DecidableEq, Repr

structure Netdev where
  /-- `uk_netdev_einfo_get`. -/
  einfo : Einfo → Option CString

/-- What `uk_netdev_get` answers below `uk_netdev_count`. -/
abbrev Netdevs := List (Option Netdev)

structure Config where
  exist : OnExist
  etcresolvconf : Bool
  etchosts : Bool
  etchostsLocalhost4 : Bool
  etchostname : Bool
deriving DecidableEq, Repr

/-- `einfo && einfo[0] != '\0'`. -/
def Netdev.given (nd : Netdev) (property : Einfo) : Option CString :=
  (nd.einfo property).filter fun s => s.val.length ≠ 0

def ukNetdevFindEinfo (property : Einfo) : Netdevs → Option Netdev
  | [] => none
  | none :: rest => ukNetdevFindEinfo property rest
  | some nd :: rest =>
      if (nd.given property).isSome then some nd else ukNetdevFindEinfo property rest

/-! ### The address of a device -/

def strchr (s : CString) (c : UInt8) : Option Nat := s.val.findIdx? (· == c)

/-- `strncpy`: past the end of the string, zeros are stored. -/
def strncpy (dst : Ptr) (src : CString) (n : Nat) : CProg Unit :=
  (List.range n).forM fun i => get (.store (dst.add i) (src.val.getD i 0))

def legacyAddr (nd : Netdev) : CProg (Option Ptr) :=
  match nd.given .addr with
  | none => pure none
  | some einfo => pure (some (start (.text einfo.val)))

def copyAddr (einfo : CString) (ip4len : Nat) : CProg (Option Ptr) := do
  strncpy (start .ip4buf) einfo ip4len
  get (.store ((start .ip4buf).add ip4len) 0)
  pure (some (start .ip4buf))

def ukNetdevIp4addrGet (nd : Netdev) : CProg (Option Ptr) :=
  match nd.given .cidr with
  | none => legacyAddr nd
  | some einfo =>
      match strchr einfo Util.SLASH with
      | none => legacyAddr nd
      | some ip4len =>
          if ip4len > 16 ∨ ip4len < 7 then legacyAddr nd else copyAddr einfo ip4len

/-! ### The generators -/

def ascii (s : String) : Bytes := s.toList.map fun c => UInt8.ofNat c.toNat

/-- `if (unlikely(rc < 0)) goto out;` -/
def orOut (p rest : CProg Int32) : CProg Int32 := do
  let rc ← p
  if rc < 0 then pure rc else rest

def LINE : UInt64 := 128

/-- What all three generators do around what they print. -/
def withFile (c : Config) (fpath : Bytes) (fmode : UInt32) (body : Int32 → CProg Int32) :
    CProg Int32 := do
  let fd ← cfCreate c.exist fpath fmode
  if c.exist = .skip ∧ fd = -EEXIST then pure 0
  else if fd < 0 then pure fd
  else do
    let rc ← body fd
    cfClose fd
    pure rc

/-- A line for a property that the device may have. -/
def printGiven (turns : Nat) (fd : Int32) (line : Bytes → Bytes) : Option CString → CProg Int32
  | none => pure 0
  | some einfo => cfNprintf turns fd LINE (line einfo.val)

def nameserverLine (einfo : Bytes) : Bytes := ascii "nameserver " ++ einfo ++ ascii "\n"

def printNameservers (turns : Nat) (fd : Int32) : Netdevs → CProg Int32
  | [] => pure 0
  | none :: rest => printNameservers turns fd rest
  | some nd :: rest =>
      orOut (printGiven turns fd nameserverLine (nd.given .dns0)) <|
      orOut (printGiven turns fd nameserverLine (nd.given .dns1)) <|
      printNameservers turns fd rest

def searchWord (einfo : Bytes) : Bytes := ascii " " ++ einfo

def printSearch (turns : Nat) (fd : Int32) : Netdevs → CProg Int32
  | [] => pure 0
  | none :: rest => printSearch turns fd rest
  | some nd :: rest =>
      orOut (printGiven turns fd searchWord (nd.given .domain)) <|
      printSearch turns fd rest

def domainLine (domain : Bytes) : Bytes := ascii "domain " ++ domain ++ ascii "\n"

def printDomains (turns : Nat) (fd : Int32) (devs : Netdevs) : CProg Int32 :=
  match (ukNetdevFindEinfo .domain devs).bind (·.einfo .domain) with
  | none => pure 0
  | some primaryDomain =>
      orOut (cfStrcpy turns fd (ascii "search")) <|
      orOut (printSearch turns fd devs) <|
      orOut (cfStrcpy turns fd (ascii "\n")) <|
      orOut (cfNprintf turns fd LINE (domainLine primaryDomain.val)) <|
      pure 0

def printResolvconf (turns : Nat) (devs : Netdevs) (fd : Int32) : CProg Int32 :=
  orOut (printNameservers turns fd devs) <|
  printDomains turns fd devs

def genEtcResolvconf (c : Config) (turns : Nat) (devs : Netdevs) (fpath : Bytes) (fmode : UInt32) :
    CProg Int32 :=
  if c.etcresolvconf then withFile c fpath fmode (printResolvconf turns devs) else pure 0

def hostLine (ip4 hostname : Bytes) : Bytes := ip4 ++ ascii "\t" ++ hostname ++ ascii "\n"

def fqdnLine (ip4 hostname domain : Bytes) : Bytes :=
  ip4 ++ ascii "\t" ++ hostname ++ ascii " " ++ hostname ++ ascii "." ++ domain ++ ascii "\n"

def printHost (turns : Nat) (fd : Int32) (nd : Netdev) : CProg Int32 := do
  match ← ukNetdevIp4addrGet nd with
  | none => pure 0
  | some ip4 =>
      match nd.given .hostname with
      | none => pure 0
      | some hostname =>
          let ip4 ← get (.cstr ip4)
          match nd.given .domain with
          | none => cfNprintf turns fd LINE (hostLine ip4 hostname.val)
          | some domain => cfNprintf turns fd LINE (fqdnLine ip4 hostname.val domain.val)

def printHosts (turns : Nat) (fd : Int32) : Netdevs → CProg Int32
  | [] => pure 0
  | none :: rest => printHosts turns fd rest
  | some nd :: rest => orOut (printHost turns fd nd) <| printHosts turns fd rest

def printLocalhost (c : Config) (turns : Nat) (fd : Int32) : CProg Int32 :=
  if c.etchostsLocalhost4 then cfStrcpy turns fd (ascii "127.0.0.1\tlocalhost\n") else pure 0

def printEtcHosts (c : Config) (turns : Nat) (devs : Netdevs) (fd : Int32) : CProg Int32 :=
  orOut (printLocalhost c turns fd) <|
  printHosts turns fd devs

def genEtcHosts (c : Config) (turns : Nat) (devs : Netdevs) (fpath : Bytes) (fmode : UInt32) :
    CProg Int32 :=
  if c.etchosts then withFile c fpath fmode (printEtcHosts c turns devs) else pure 0

def hostnameLine (hostname : Bytes) : Bytes := hostname ++ ascii "\n"

def printHostname (turns : Nat) (hostname : Bytes) (fd : Int32) : CProg Int32 := do
  let rc ← cfNprintf turns fd LINE (hostnameLine hostname)
  if rc > 0 then pure 0 else pure rc

def genEtcHostname (c : Config) (turns : Nat) (devs : Netdevs) (fpath : Bytes) (fmode : UInt32) :
    CProg Int32 :=
  if c.etchostname then
    match (ukNetdevFindEinfo .hostname devs).bind (·.einfo .hostname) with
    | none => pure 0
    | some hostname =>
        if hostname.val.length = 0 then pure 0
        else withFile c fpath fmode (printHostname turns hostname.val)
  else pure 0

def genEtc (c : Config) (turns : Nat) (devs : Netdevs) : CProg Int32 :=
  orOut (cfMkdir (ascii "/etc") 0o755) <|
  orOut (genEtcResolvconf c turns devs (ascii "/etc/resolv.conf") 0o644) <|
  orOut (genEtcHosts c turns devs (ascii "/etc/hosts") 0o644) <|
  orOut (genEtcHostname c turns devs (ascii "/etc/hostname") 0o444) <|
  pure 0

/-! ### What the printing functions inherit -/

/-- A property of programs that the generators can be assembled with: it holds of what
    they print with through `fd`, and of a sequence of programs if it holds of each. -/
structure Inherited (fd : Int32) (G : {α : Type} → CProg α → Prop) : Prop where
  done : ∀ {α : Type} (r : Outcome Busy α), G (.done r)
  bind : ∀ {α β : Type} {p : CProg α} {f : α → CProg β}, G p → (∀ a, G (f a)) → G (p >>= f)
  store : ∀ p c, G (get (.store p c))
  cstr : ∀ p, G (get (.cstr p))
  print : ∀ turns text, G (cfNprintf turns fd LINE text)
  copy : ∀ turns s, G (cfStrcpy turns fd s)

namespace Inherited

variable {fd : Int32} {G : {α : Type} → CProg α → Prop} (h : Inherited fd G)
include h

theorem orOut {p rest : CProg Int32} (hp : G p) (hrest : G rest) : G (orOut p rest) := by
  apply h.bind hp
  intro rc
  split
  · exact h.done _
  · exact hrest

theorem printGiven (turns : Nat) (line : Bytes → Bytes) (s : Option CString) :
    G (printGiven turns fd line s) := by
  cases s with
  | none => exact h.done _
  | some einfo => exact h.print turns _

theorem printNameservers (turns : Nat) (devs : Netdevs) : G (printNameservers turns fd devs) := by
  induction devs with
  | nil => exact h.done _
  | cons nd rest ih =>
    cases nd with
    | none => exact ih
    | some nd =>
      apply h.orOut (h.printGiven _ _ _)
      exact h.orOut (h.printGiven _ _ _) ih

theorem printSearch (turns : Nat) (devs : Netdevs) : G (printSearch turns fd devs) := by
  induction devs with
  | nil => exact h.done _
  | cons nd rest ih =>
    cases nd with
    | none => exact ih
    | some nd => exact h.orOut (h.printGiven _ _ _) ih

theorem printDomains (turns : Nat) (devs : Netdevs) : G (printDomains turns fd devs) := by
  unfold Etc.printDomains
  split
  · exact h.done _
  · apply h.orOut (h.copy _ _)
    apply h.orOut (h.printSearch _ _)
    apply h.orOut (h.copy _ _)
    exact h.orOut (h.print _ _) (h.done _)

theorem printResolvconf (turns : Nat) (devs : Netdevs) : G (printResolvconf turns devs fd) :=
  h.orOut (h.printNameservers turns devs) (h.printDomains turns devs)

theorem legacyAddr (nd : Netdev) : G (legacyAddr nd) := by
  unfold Etc.legacyAddr
  split
  · exact h.done _
  · exact h.done _

theorem ukNetdevIp4addrGet (nd : Netdev) : G (ukNetdevIp4addrGet nd) := by
  have hcopy (dst : Ptr) (src : CString) (is : List Nat) :
      G (is.forM fun i => get (.store (dst.add i) (src.val.getD i 0)) : CProg Unit) := by
    induction is with
    | nil => exact h.done _
    | cons i is ih => exact h.bind (h.store _ _) fun _ => ih
  unfold Etc.ukNetdevIp4addrGet
  split
  · exact h.legacyAddr nd
  split
  · exact h.legacyAddr nd
  split
  · exact h.legacyAddr nd
  · apply h.bind (hcopy _ _ _)
    intro _
    exact h.bind (h.store _ _) fun _ => h.done _

theorem printHost (turns : Nat) (nd : Netdev) : G (printHost turns fd nd) := by
  apply h.bind (h.ukNetdevIp4addrGet nd)
  intro ip4
  cases ip4 with
  | none => exact h.done _
  | some ip4 =>
    dsimp only
    split
    · exact h.done _
    apply h.bind (h.cstr _)
    intro ip4
    split
    · exact h.print _ _
    · exact h.print _ _

theorem printHosts (turns : Nat) (devs : Netdevs) : G (printHosts turns fd devs) := by
  induction devs with
  | nil => exact h.done _
  | cons nd rest ih =>
    cases nd with
    | none => exact ih
    | some nd => exact h.orOut (h.printHost _ _) ih

theorem printEtcHosts (c : Config) (turns : Nat) (devs : Netdevs) :
    G (printEtcHosts c turns devs fd) := by
  apply h.orOut _ (h.printHosts turns devs)
  unfold Etc.printLocalhost
  split
  · exact h.copy _ _
  · exact h.done _

theorem printHostname (turns : Nat) (hostname : Bytes) : G (printHostname turns hostname fd) := by
  apply h.bind (h.print _ _)
  intro rc
  split
  · exact h.done _
  · exact h.done _

end Inherited

/-- What is printed through a descriptor is printed with the functions of `conffile.c`. -/
def Prints (body : Int32 → CProg Int32) : Prop :=
  ∀ (fd : Int32) (G : {α : Type} → CProg α → Prop), Inherited fd @G → G (body fd)

/-- What holds of each generator, and of what `orOut` puts together, holds of `gen_etc`. -/
theorem genEtc_of {c : Config} {G : CProg Int32 → Prop} (hdone : ∀ rc : Int32, G (pure rc))
    (hor : ∀ {p rest : CProg Int32}, G p → G rest → G (orOut p rest))
    (hmkdir : ∀ dpath dmode, G (cfMkdir dpath dmode))
    (hfile : ∀ {body : Int32 → CProg Int32} fpath fmode, Prints body →
      G (withFile c fpath fmode body)) (turns : Nat) (devs : Netdevs) : G (genEtc c turns devs) := by
  apply hor (hmkdir _ _)
  apply hor
  · unfold genEtcResolvconf
    split
    · exact hfile _ _ fun fd G h => h.printResolvconf turns devs
    · exact hdone _
  apply hor
  · unfold genEtcHosts
    split
    · exact hfile _ _ fun fd G h => h.printEtcHosts c turns devs
    · exact hdone _
  apply hor
  · unfold genEtcHostname
    split
    · split
      · exact hdone _
      split
      · exact hdone _
      · exact hfile _ _ fun fd G h => h.printHostname turns _
    · exact hdone _
  exact hdone _

end ElfLoader.Etc
