import ElfLoader.Disk
import ElfLoader.Records

/-!
# What is in the files in `/etc`

The generators tell the application how the network is set up: its resolver reads the name
servers and the domains from one file, and its names from two others.  A run of `gen_etc` that
succeeds leaves files from which a reader gets what the devices said, as long as this can be
written down: a string with a blank or a line break in it cannot, and a line that does not fit
its buffer is not printed as it is.
-/

namespace ElfLoader.Etc

open ElfLoader Outcome Prog Conffile

/-! ### What a reader gets -/

def NEWLINE : UInt8 := 0x0a
def SPACE : UInt8 := 0x20
def TAB : UInt8 := 0x09

def isBlank (x : UInt8) : Bool := x == SPACE || x == TAB

/-- The records of a file in `/etc`. -/
def etcRecords (text : Bytes) : List (List Bytes) := records NEWLINE isBlank text

/-- No string of the device has a blank or a line break in it. -/
def Netdev.Plain (nd : Netdev) : Prop :=
  ∀ property, ∀ s ∈ nd.einfo property, ∀ x ∈ s.val, isBlank x = false ∧ x ≠ NEWLINE

def resolvRecords (devs : Netdevs) : List (List Bytes) :=
  (servers devs).map (fun server => [ascii "nameserver", server]) ++
    match givens .domain devs with
    | [] => []
    | domain :: rest => [ascii "search" :: domain :: rest, [ascii "domain", domain]]

/-- The names of a device, next to its address. -/
def Netdev.hostRecord (nd : Netdev) : Option (List Bytes) :=
  match ip4addr nd, nd.given .hostname, nd.given .domain with
  | some ip4, some hostname, none => some [ip4, hostname.val]
  | some ip4, some hostname, some domain =>
      some [ip4, hostname.val, hostname.val ++ ascii "." ++ domain.val]
  | _, _, _ => none

def hostRecords (c : Config) (devs : Netdevs) : List (List Bytes) :=
  (if c.etchostsLocalhost4 then [[ascii "127.0.0.1", ascii "localhost"]] else []) ++
    devs.filterMap fun dev => dev.bind Netdev.hostRecord

section Reading

variable {nd : Netdev} {devs : Netdevs}

abbrev EtcField (s : Bytes) : Prop := Field NEWLINE isBlank s

theorem etcRecords_nil : etcRecords [] = [] := records_nil

theorem etcRecords_line {field : Bytes} {rest : List (UInt8 × Bytes)}
    (h : Line NEWLINE isBlank field rest) (text : Bytes) :
    etcRecords (lineOf field rest ++ NEWLINE :: text) =
      (field :: rest.map Prod.snd) :: etcRecords text :=
  h.records_eq text

theorem separator_space : Separator NEWLINE isBlank SPACE := ⟨rfl, by decide⟩
theorem separator_tab : Separator NEWLINE isBlank TAB := ⟨rfl, by decide⟩

/-- A string that is printed because it is there and not empty. -/
theorem Netdev.Plain.given (h : nd.Plain) {property : Einfo} {s : CString}
    (hs : nd.given property = some s) : EtcField s.val := by
  rcases Option.filter_eq_some_iff.mp hs with ⟨heinfo, hne⟩
  refine ⟨?_, h property s heinfo⟩
  rintro hnil
  rw [hnil] at hne
  exact absurd hne (by decide)

theorem Netdev.Plain.addr (h : nd.Plain) {ip4 : Bytes} (hip4 : ip4addr nd = some ip4) :
    EtcField ip4 := by
  unfold ip4addr at hip4
  split at hip4
  · rename_i t ht
    cases hip4
    rcases Option.filter_eq_some_iff.mp ht with ⟨hcidr, hfits⟩
    rcases Option.bind_eq_some_iff.mp hcidr with ⟨s, hs, htake⟩
    split at htake
    · cases htake
      simp only [addrFits, decide_eq_true_eq] at hfits
      refine ⟨List.length_pos_iff.mp (by omega), ?_⟩
      exact fun x hx => h .cidr s hs x (List.takeWhile_subset _ hx)
    · cases htake
  · rcases Option.filter_eq_some_iff.mp hip4 with ⟨haddr, hne⟩
    rcases Option.map_eq_some_iff.mp haddr with ⟨s, hs, rfl⟩
    refine ⟨?_, h .addr s hs⟩
    rintro hnil
    rw [hnil] at hne
    exact absurd hne (by decide)

theorem field_of_mem_givens {property : Einfo} {s : Bytes} (h : ∀ nd, some nd ∈ devs → nd.Plain)
    (hs : s ∈ givens property devs) : EtcField s := by
  induction devs with
  | nil => exact absurd hs List.not_mem_nil
  | cons dev rest ih =>
    have hrest := ih fun nd hnd => h nd (List.mem_cons_of_mem dev hnd)
    cases dev with
    | none => exact hrest hs
    | some nd =>
      rw [givens, List.mem_append, Option.mem_toList, Option.map_eq_some_iff] at hs
      rcases hs with ⟨t, ht, rfl⟩ | hs
      · exact (h nd List.mem_cons_self).given ht
      · exact hrest hs

theorem field_of_mem_servers {s : Bytes} (h : ∀ nd, some nd ∈ devs → nd.Plain) (hs : s ∈ servers devs) :
    EtcField s := by
  induction devs with
  | nil => exact absurd hs List.not_mem_nil
  | cons dev rest ih =>
    have hrest := ih fun nd hnd => h nd (List.mem_cons_of_mem dev hnd)
    cases dev with
    | none => exact hrest hs
    | some nd =>
      simp only [servers, List.mem_append, Option.mem_toList, Option.map_eq_some_iff] at hs
      rcases hs with (⟨t, ht, rfl⟩ | ⟨t, ht, rfl⟩) | hs
      · exact (h nd List.mem_cons_self).given ht
      · exact (h nd List.mem_cons_self).given ht
      · exact hrest hs

theorem records_nameserver {s : Bytes} (hs : EtcField s) (text : Bytes) :
    etcRecords (nameserverLine s ++ text) = [ascii "nameserver", s] :: etcRecords text := by
  have hline : nameserverLine s ++ text =
      lineOf (ascii "nameserver") [(SPACE, s)] ++ NEWLINE :: text := by
    simp [nameserverLine, lineOf, ascii, SPACE, NEWLINE]
  have hok : Line NEWLINE isBlank (ascii "nameserver") [(SPACE, s)] := by
    refine ⟨by decide, ?_⟩
    rw [List.forall_mem_singleton]
    exact ⟨separator_space, hs⟩
  rw [hline, etcRecords_line hok]
  rfl

theorem records_domains {domain : Bytes} {rest : List Bytes}
    (h : ∀ s ∈ domain :: rest, EtcField s) :
    etcRecords (ascii "search" ++ (domain :: rest).flatMap searchWord ++ ascii "\n" ++
      domainLine domain) = [ascii "search" :: domain :: rest, [ascii "domain", domain]] := by
  have hlines : ascii "search" ++ (domain :: rest).flatMap searchWord ++ ascii "\n" ++
      domainLine domain =
      lineOf (ascii "search") ((domain :: rest).map fun s => (SPACE, s)) ++ NEWLINE ::
        (lineOf (ascii "domain") [(SPACE, domain)] ++ NEWLINE :: []) := by
    have hword : searchWord = fun s => SPACE :: s := rfl
    simp [hword, domainLine, lineOf, List.flatMap_map, ascii, SPACE, NEWLINE]
  have hsearch : Line NEWLINE isBlank (ascii "search")
      ((domain :: rest).map fun s => (SPACE, s)) := by
    refine ⟨by decide, ?_⟩
    intro next hnext
    rcases List.mem_map.mp hnext with ⟨s, hs, rfl⟩
    exact ⟨separator_space, h s hs⟩
  have hdomain : Line NEWLINE isBlank (ascii "domain") [(SPACE, domain)] := by
    refine ⟨by decide, ?_⟩
    rw [List.forall_mem_singleton]
    exact ⟨separator_space, h domain List.mem_cons_self⟩
  rw [hlines, etcRecords_line hsearch, etcRecords_line hdomain, etcRecords_nil]
  simp

/-- **Name servers and domains** are read back. -/
theorem records_resolvText (h : ∀ nd, some nd ∈ devs → nd.Plain) :
    etcRecords (resolvText devs) = resolvRecords devs := by
  have hservers (text : Bytes) : etcRecords ((servers devs).flatMap nameserverLine ++ text) =
      (servers devs).map (fun server => [ascii "nameserver", server]) ++ etcRecords text :=
    records_flatMap (fun s hs text => records_nameserver (field_of_mem_servers h hs) text) text
  unfold resolvText resolvRecords
  rw [hservers]
  congr 1
  cases hdomains : givens .domain devs with
  | nil => exact etcRecords_nil
  | cons domain rest =>
    apply records_domains
    intro s hs
    rw [← hdomains] at hs
    exact field_of_mem_givens h hs

/-- The entry of a device is read back. -/
theorem records_hostText (h : nd.Plain) (text : Bytes) :
    etcRecords (nd.hostText ++ text) = nd.hostRecord.toList ++ etcRecords text := by
  unfold Netdev.hostText Netdev.hostRecord
  cases haddr : ip4addr nd with
  | none => rfl
  | some ip4 =>
    cases hname : nd.given .hostname with
    | none => rfl
    | some hostname =>
      have hip4 := h.addr haddr
      have hfield := h.given hname
      cases hdom : nd.given .domain with
      | none =>
        have hline : hostLine ip4 hostname.val ++ text =
            lineOf ip4 [(TAB, hostname.val)] ++ NEWLINE :: text := by
          simp [hostLine, lineOf, ascii, TAB, NEWLINE]
        have hok : Line NEWLINE isBlank ip4 [(TAB, hostname.val)] := by
          refine ⟨hip4, ?_⟩
          rw [List.forall_mem_singleton]
          exact ⟨separator_tab, hfield⟩
        dsimp only
        rw [hline, etcRecords_line hok]
        rfl
      | some domain =>
        have hline : fqdnLine ip4 hostname.val domain.val ++ text =
            lineOf ip4 [(TAB, hostname.val), (SPACE, hostname.val ++ ascii "." ++ domain.val)] ++
              NEWLINE :: text := by
          simp [fqdnLine, lineOf, ascii, TAB, SPACE, NEWLINE]
        have hfqdn : EtcField (hostname.val ++ ascii "." ++ domain.val) := by
          refine ⟨by simp [hfield.1], ?_⟩
          intro x hx
          rw [List.mem_append, List.mem_append] at hx
          rcases hx with (hx | hx) | hx
          · exact hfield.2 x hx
          · rcases List.mem_singleton.mp hx with rfl
            decide
          · exact (h.given hdom).2 x hx
        have hok : Line NEWLINE isBlank ip4
            [(TAB, hostname.val), (SPACE, hostname.val ++ ascii "." ++ domain.val)] := by
          refine ⟨hip4, ?_⟩
          rw [List.forall_mem_cons, List.forall_mem_singleton]
          exact ⟨⟨separator_tab, hfield⟩, separator_space, hfqdn⟩
        dsimp only
        rw [hline, etcRecords_line hok]
        rfl

/-- **Addresses and names** are read back. -/
theorem records_hostsText (c : Config) (h : ∀ nd, some nd ∈ devs → nd.Plain) :
    etcRecords (hostsText c devs) = hostRecords c devs := by
  have hdevices : etcRecords (hostTexts devs) =
      devs.filterMap fun dev => dev.bind Netdev.hostRecord := by
    induction devs with
    | nil => exact etcRecords_nil
    | cons dev rest ih =>
      have hrest := ih fun nd hnd => h nd (List.mem_cons_of_mem dev hnd)
      cases dev with
      | none => exact hrest
      | some nd =>
        rw [hostTexts, records_hostText (h nd List.mem_cons_self), hrest]
        cases hrecord : nd.hostRecord with
        | none => simp [hrecord]
        | some record => simp [hrecord]
  unfold hostsText hostRecords
  split
  · have hline : ascii "127.0.0.1\tlocalhost\n" ++ hostTexts devs =
        lineOf (ascii "127.0.0.1") [(TAB, ascii "localhost")] ++ NEWLINE :: hostTexts devs := by
      rfl
    have hok : Line NEWLINE isBlank (ascii "127.0.0.1") [(TAB, ascii "localhost")] := by
      refine ⟨by decide, ?_⟩
      rw [List.forall_mem_singleton]
      exact ⟨separator_tab, by decide⟩
    rw [hline, etcRecords_line hok, hdevices]
    rfl
  · rw [List.nil_append, List.nil_append, hdevices]

theorem records_hostname {hostname : Bytes} (h : EtcField hostname) :
    etcRecords (hostnameLine hostname) = [[hostname]] := by
  have hline : hostnameLine hostname = lineOf hostname [] ++ NEWLINE :: [] := by
    simp [hostnameLine, lineOf, ascii, NEWLINE]
  have hok : Line NEWLINE isBlank hostname [] := by
    refine ⟨h, ?_⟩
    intro next hnext
    exact absurd hnext List.not_mem_nil
  rw [hline, etcRecords_line hok, etcRecords_nil]
  rfl

end Reading

/-! ### The whole of `/etc` -/

def ETC : Bytes := ascii "/etc"
def RESOLV_CONF : Bytes := ascii "/etc/resolv.conf"
def HOSTS : Bytes := ascii "/etc/hosts"
def HOSTNAME : Bytes := ascii "/etc/hostname"

/-- A reader of the file gets these records, unless it was there and had to be left alone. -/
def ReadsAs (c : Config) (fpath : Bytes) (fmode : UInt32) (rs : List (List Bytes))
    (d d' : Disk) : Prop :=
  (∃ kind text, d'.files fpath = some ⟨kind, fmode, text⟩ ∧ etcRecords text = rs) ∨
    (c.exist = .skip ∧ d.files fpath ≠ none ∧ d'.files fpath = d.files fpath)

/-- The paths that `gen_etc` has to do with. -/
def Generates (c : Config) (devs : Netdevs) (path : Bytes) : Prop :=
  path = ETC ∨ (c.etcresolvconf = true ∧ path = RESOLV_CONF) ∨ (c.etchosts = true ∧ path = HOSTS) ∨
    ((c.etchostname = true ∧ givens .hostname devs ≠ []) ∧ path = HOSTNAME)

/-- What a successful run has made of the disk. -/
structure Generated (c : Config) (devs : Netdevs) (d d' : Disk) : Prop where
  etc : ∃ node, d'.files ETC = some node ∧ (d.files ETC = some node ∨
    d.files ETC = none ∧ node = ⟨S_IFDIR, 0o755, []⟩)
  resolvconf : c.etcresolvconf = true →
    ReadsAs c RESOLV_CONF 0o644 (resolvRecords devs) d d'
  hosts : c.etchosts = true → ReadsAs c HOSTS 0o644 (hostRecords c devs) d d'
  hostname : c.etchostname = true → ∀ name rest, givens .hostname devs = name :: rest →
    ReadsAs c HOSTNAME 0o444 [[name]] d d'
  fds : d'.fds = d.fds
  others : ∀ path, ¬ Generates c devs path → d'.files path = d.files path

section GenEtc

variable {c : Config} {turns : Nat} {devs : Netdevs} {d : Disk} {on : Prop} {fpath : Bytes}
  {fmode : UInt32} {text : Bytes}

theorem leaves_genEtcResolvconf (h : ∀ nd, some nd ∈ devs → nd.Fits) :
    Leaves d (genEtcResolvconf c turns devs fpath fmode) fun d' rc => ¬ rc < 0 →
      FileWritten (c.etcresolvconf = true) c fpath fmode (resolvText devs) d d' := by
  unfold genEtcResolvconf
  split
  · rename_i hon
    exact leaves_withFile hon fun fd => adds_printResolvconf h
  · rename_i hoff
    exact fun _ => fileWritten_off hoff

theorem leaves_genEtcHosts (h : ∀ nd, some nd ∈ devs → nd.Fits) :
    Leaves d (genEtcHosts c turns devs fpath fmode) fun d' rc => ¬ rc < 0 →
      FileWritten (c.etchosts = true) c fpath fmode (hostsText c devs) d d' := by
  unfold genEtcHosts
  split
  · rename_i hon
    exact leaves_withFile hon fun fd => adds_printEtcHosts c h
  · rename_i hoff
    exact fun _ => fileWritten_off hoff

theorem leaves_genEtcHostname (h : ∀ nd, some nd ∈ devs → nd.Fits) :
    Leaves d (genEtcHostname c turns devs fpath fmode) fun d' rc => ¬ rc < 0 →
      FileWritten (c.etchostname = true ∧ givens .hostname devs ≠ []) c fpath fmode
        (hostnameLine ((givens .hostname devs).headD [])) d d' := by
  unfold genEtcHostname
  split
  · rename_i hon
    have hhead := find_eq_head .hostname devs
    split
    · rename_i hnone
      rw [hnone] at hhead
      exact fun _ => fileWritten_off fun h => h.2 (List.head?_eq_none_iff.mp hhead.symm)
    · rename_i hostname hfound
      rw [hfound] at hhead
      rcases List.head?_eq_some_iff.mp hhead.symm with ⟨rest, hgivens⟩
      rcases find_given hfound with ⟨nd, hnd, hgiven⟩
      split
      · rename_i hempty
        have hne := (Option.filter_eq_some_iff.mp hgiven).2
        rw [decide_eq_true_eq] at hne
        exact absurd hempty hne
      · rw [hgivens]
        exact leaves_withFile ⟨hon, List.cons_ne_nil _ _⟩
          fun fd => adds_printHostname ((h nd hnd).hostname hostname hgiven)
  · rename_i hoff
    exact fun _ => fileWritten_off fun h => hoff h.1

theorem FileWritten.readsAs {d₁ d₂ d' : Disk} {rs : List (List Bytes)}
    (h : FileWritten on c fpath fmode text d₁ d₂) (hon : on) (hreads : etcRecords text = rs)
    (hbefore : d₁.files fpath = d.files fpath) (hafter : d'.files fpath = d₂.files fpath) :
    ReadsAs c fpath fmode rs d d' := by
  rw [ReadsAs, hafter, ← hbefore]
  rcases h.file hon with ⟨kind, hfile⟩ | hskip
  · exact Or.inl ⟨kind, text, hfile, hreads⟩
  · exact Or.inr hskip

theorem leaves_genEtc (hfits : ∀ nd, some nd ∈ devs → nd.Fits)
    (hplain : ∀ nd, some nd ∈ devs → nd.Plain) :
    Leaves d (genEtc c turns devs) fun d' rc => ¬ rc < 0 → Generated c devs d d' := by
  apply Leaves.orOut leaves_cfMkdir
  rintro d₁ ⟨hfds₁, hothers₁, hetc⟩
  apply Leaves.orOut (leaves_genEtcResolvconf hfits)
  intro d₂ hresolv
  apply Leaves.orOut (leaves_genEtcHosts hfits)
  intro d₃ hhosts
  apply Leaves.orOut (leaves_genEtcHostname hfits)
  intro d₄ hname _
  -- each path is touched by one generator
  have hresolv_after : d₄.files RESOLV_CONF = d₂.files RESOLV_CONF :=
    (hname.others _ fun _ => by decide).trans (hhosts.others _ fun _ => by decide)
  have hhosts_before : d₂.files HOSTS = d.files HOSTS :=
    (hresolv.others _ fun _ => by decide).trans (hothers₁ _ (by decide))
  have hname_before : d₃.files HOSTNAME = d.files HOSTNAME :=
    (hhosts.others _ fun _ => by decide).trans
      ((hresolv.others _ fun _ => by decide).trans (hothers₁ _ (by decide)))
  have hetc_after : d₄.files ETC = d₁.files ETC :=
    (hname.others _ fun _ => by decide).trans
      ((hhosts.others _ fun _ => by decide).trans (hresolv.others _ fun _ => by decide))
  constructor
  · rw [hetc_after]
    exact hetc
  · intro hon
    exact hresolv.readsAs hon (records_resolvText hplain) (hothers₁ _ (by decide)) hresolv_after
  · intro hon
    exact hhosts.readsAs hon (records_hostsText c hplain) hhosts_before
      (hname.others _ fun _ => by decide)
  · intro hon name rest hgivens
    have hne : givens .hostname devs ≠ [] := hgivens ▸ List.cons_ne_nil name rest
    refine hname.readsAs ⟨hon, hne⟩ ?_ hname_before rfl
    rw [hgivens]
    exact records_hostname (field_of_mem_givens hplain (hgivens ▸ List.mem_cons_self))
  · rw [hname.fds, hhosts.fds, hresolv.fds, hfds₁]
  · intro path hpath
    rw [hname.others path fun hon heq => hpath (Or.inr (Or.inr (Or.inr ⟨hon, heq⟩))),
      hhosts.others path fun hon heq => hpath (Or.inr (Or.inr (Or.inl ⟨hon, heq⟩))),
      hresolv.others path fun hon heq => hpath (Or.inr (Or.inl ⟨hon, heq⟩)),
      hothers₁ path fun heq => hpath (Or.inl heq)]

/-- **What is read from `/etc`.**  When `gen_etc` has succeeded, however its writes were cut up
    and retried, a reader of the files gets the name servers, the domains and the names of the
    devices, in their order; nothing else on the disk has changed, and no descriptor is left. -/
theorem generated_files_read_back (hfits : ∀ nd, some nd ∈ devs → nd.Fits)
    (hplain : ∀ nd, some nd ∈ devs → nd.Plain) {tr : List (Event Posix)} {d' : Disk} {rc : Int32}
    (hrun : Reaches diskStep d (genEtc c turns devs) tr d' (.done (.ok rc))) (hrc : ¬ rc < 0) :
    Generated c devs d d' :=
  wp_reaches (leaves_genEtc hfits hplain) hrun hrc

end GenEtc

theorem smallCidr_nul : 0 ∉ ascii "10.0.0.2/24" := by decide +kernel
theorem smallServer_nul : 0 ∉ ascii "10.0.0.1" := by decide +kernel
theorem smallDomain_nul : 0 ∉ ascii "lan" := by decide +kernel
theorem smallName_nul : 0 ∉ ascii "vm" := by decide +kernel

/-- A device `vm.lan`. -/
def smallDevice : Netdev where
  einfo property :=
    if property = .cidr then some ⟨ascii "10.0.0.2/24", smallCidr_nul⟩
    else if property = .dns0 then some ⟨ascii "10.0.0.1", smallServer_nul⟩
    else if property = .domain then some ⟨ascii "lan", smallDomain_nul⟩
    else if property = .hostname then some ⟨ascii "vm", smallName_nul⟩
    else none

def everyFile : Config := ⟨.replace, true, true, true, true⟩

def emptyDisk : Disk := ⟨blank, fun _ => none, fun _ => none⟩

def smallEtc : List (Event Posix) × Disk × CProg Int32 :=
  (genEtc everyFile 1 [none, some smallDevice]).runUntil (I := Posix) diskExec emptyDisk

theorem smallEtc_ok : smallEtc.2.2.outcome? = some (ok 0) := by
  decide +kernel

theorem smallDevice_plain : smallDevice.Plain := by
  intro property s hs
  cases property with
  | addr => cases hs
  | dns1 => cases hs
  | _ =>
    cases hs
    decide +kernel

theorem smallDevice_fits : smallDevice.Fits := by
  constructor
  · intro property hproperty s hs
    cases property with
    | dns0 =>
      cases hs
      exact Or.inl (by decide +kernel)
    | dns1 => cases hs
    | _ => exact absurd hproperty (by decide)
  · rintro s ⟨⟩
    exact Or.inl (by decide +kernel)
  · rintro s ⟨⟩
    exact Or.inl (by decide +kernel)
  · exact Or.inl (by decide +kernel)
  · rintro s ⟨⟩
    exact Or.inl (by decide +kernel)
  · rintro ⟨t, ht, hlen⟩
    have haddr : cidrAddr smallDevice = some (ascii "10.0.0.2") := by decide +kernel
    rw [haddr] at ht
    cases ht
    exact absurd hlen (by decide +kernel)

/-- What `vm.lan` says about itself can be read from the disk. -/
theorem smallEtc_reads_back :
    Generated everyFile [none, some smallDevice] emptyDisk smallEtc.2.1 := by
  have hrun : Reaches diskStep emptyDisk (genEtc everyFile 1 [none, some smallDevice]) smallEtc.1
      smallEtc.2.1 smallEtc.2.2 :=
    runUntil_reaches (fun _ _ _ _ h => diskExec_ok h) _ _
  rw [eq_done_of_outcome smallEtc_ok] at hrun
  have hdevs : ∀ nd, some nd ∈ [none, some smallDevice] → nd = smallDevice := by
    intro nd hnd
    simpa using hnd
  refine generated_files_read_back ?_ ?_ hrun (by decide)
  · intro nd hnd
    rw [hdevs nd hnd]
    exact smallDevice_fits
  · intro nd hnd
    rw [hdevs nd hnd]
    exact smallDevice_plain

end ElfLoader.Etc
