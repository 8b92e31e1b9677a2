import Dctl.Cli.RealPath
import Dctl.ProofKit.Checks
import Mathlib.Data.List.Infix

/-! The remotes of a configuration (`config/model.rs`), the places they name (`config/location.rs`),
and the rules about the places that hold a vault's objects (`config/validate.rs`,
`config/namespace.rs`).  Which destinations a plaintext write may have (`addressing.rs`), and what
that keeps out of the places that the configuration declares a vault's. -/

namespace Dctl.Cli

open ProofKit List

def providerLocal : String := "local"

def maxVaultChainDepth : Nat := 8

/-- One named remote: the settings that decide which place it is, and whether that place is declared
a vault's object store. -/
inductive RemoteDef where
  | «local» (path : String) (requireVault : Bool)
  | b2 (bucket : String) (requireVault : Bool)
  | s3 (bucket : String) (endpoint : Option String) (requireVault : Bool)
  | r2 (bucket : String) (account : Option String) (requireVault : Bool)
  | sftp (host base : String) (requireVault : Bool)
  | vault (base : String)
  deriving DecidableEq, Repr

namespace RemoteDef

def typeName : RemoteDef → String
  | .local .. => providerLocal
  | b2 .. => "b2"
  | s3 .. => "s3"
  | r2 .. => "r2"
  | sftp .. => "sftp"
  | vault .. => "vault"

def base : RemoteDef → Option String
  | vault base => some base
  | _ => none

def isVault : RemoteDef → Bool
  | vault _ => true
  | _ => false

def requireVault : RemoteDef → Bool
  | .local _ flag | b2 _ flag | s3 _ _ flag | r2 _ _ flag | sftp _ _ flag => flag
  | vault _ => false

end RemoteDef

structure Config where
  remotes : List (String × RemoteDef)
  unique : (remotes.map Prod.fst).Nodup

def Config.get (config : Config) (name : String) : Option RemoteDef := config.remotes.lookup name

def locationFieldSeparator : String := "|"

structure Location where
  text : String
  deriving DecidableEq, Repr

namespace Location

def fields : RemoteDef → Option (List String)
  | .local path _ => some [path]
  | .b2 bucket _ => some [bucket]
  | .s3 bucket endpoint _ => some [bucket, endpoint.getD ""]
  | .r2 bucket account _ => some [bucket, account.getD ""]
  | .sftp host base _ => some [host, base]
  | .vault _ => none

def of (remote : RemoteDef) : Option Location :=
  (fields remote).map fun f =>
    ⟨remote.typeName ++ remoteSeparator ++ locationFieldSeparator.intercalate f⟩

def push (identity component : String) : String :=
  if component = OsPath.rootDir then identity ++ OsPath.rootDir
  else if component = "." then identity
  else if identity = "" ∨ identity.toList.getLast? = some pathSeparator then identity ++ component
  else identity ++ OsPath.rootDir ++ component

def ofPath (components : List String) : Location :=
  ⟨providerLocal ++ remoteSeparator ++ components.foldl push ""⟩

end Location

namespace Config

variable (config : Config)

def plainRemoteAtVaultLocation (plain guard : String) (location : Location) : CliError :=
  (CliError.ofFatal ("remote '" ++ plain ++ "' addresses '" ++ location.text ++
      "', which remote '" ++ guard ++ "' declares is a vault's object store")).withHint
    ("Writing plaintext into a vault's object store would leave it " ++
      "sitting beside the ciphertext it should have become. Address " ++
      "the vault remote that wraps '" ++ guard ++ "' instead — everything " ++
      "through it is sealed. To replicate the stored objects as they " ++
      "are, without a password, address '" ++ guard ++ "' itself.")

def guarded : List (Location × String) :=
  config.remotes.filterMap fun remote =>
    if remote.2.requireVault then (Location.of remote.2).map fun location => (location, remote.1)
    else none

def vaultOnlyLocations : Except CliError Unit :=
  let found := config.remotes.findSome? fun remote =>
    if remote.2.requireVault then none
    else do
      let location ← Location.of remote.2
      let guard ← config.guarded.lookup location
      pure (plainRemoteAtVaultLocation remote.1 guard location)
  match found with
  | some error => .error error
  | none => .ok ()

def vaultChainFrom :
    (left : Nat) → (chain : List String) → (current : String) → Option (List String)
  | 0, _, _ => none
  | left + 1, chain, current =>
    if current ∈ chain then none
    else match config.get current with
      | none => none
      | some remote =>
        match remote.base with
        | some base => vaultChainFrom left (chain ++ [current]) base
        | none => some (chain ++ [current])

def vaultChain (name : String) : Option (List String) :=
  config.vaultChainFrom maxVaultChainDepth [] name

def sealedView (store : String) : Option String :=
  (config.remotes.find? fun remote =>
    remote.2.isVault && (config.vaultChain remote.1).any fun chain =>
      chain.contains store).map Prod.fst

end Config

structure VaultNamespace where
  subject : String
  store : String
  vault : Option String
  deriving DecidableEq, Repr

/-- A configured store, as the file spells it and where that spelling leads. -/
structure Store where
  name : String
  spelled : Location
  real : Option Location
  deriving DecidableEq, Repr

def Store.is (store : Store) (place : Location) : Bool :=
  store.spelled = place || store.real = some place

namespace VaultNamespace

variable {C : Type} (config : Config) (g : Ground C)

def ofRemote (name : String) : Option VaultNamespace :=
  if (config.get name).any RemoteDef.requireVault then some ⟨name, name, config.sealedView name⟩
  else none

def configuredReal : RemoteDef → Option Location
  | .local path _ => (g.realPath path).map fun real => Location.ofPath (OsPath.rootDir :: real)
  | _ => none

def vaultOnlyStores : List Store :=
  config.remotes.filterMap fun remote =>
    if remote.2.requireVault then
      (Location.of remote.2).map fun spelled => ⟨remote.1, spelled, configuredReal g remote.2⟩
    else none

def ancestors (text : String) (components : List String) : List (String × List String) :=
  (text, components) :: (components.dropLast.inits.reverse.filter (· ≠ [])).map fun above =>
    (OsPath.ofComponents above, above)

/-- Every place a destination could be claimed at. -/
def spellings (path : String) : List (String × List String) :=
  ancestors path (OsPath.components path) ++
    ((g.realPath path).map fun real =>
      ancestors (OsPath.ofComponents (OsPath.rootDir :: real)) (OsPath.rootDir :: real)).getD []

def ofPath (path : String) : Option VaultNamespace :=
  if path = "" then none
  else (spellings g path).findSome? fun ancestor =>
    ((vaultOnlyStores config g).find? fun store => store.is (Location.ofPath ancestor.2)).map
      fun store => ⟨ancestor.1, store.name, config.sealedView store.name⟩

end VaultNamespace

def vaultEnvelopeObjectKey : String := "system/envelope.bin"

def plainWriteIntoVaultHint : String :=
  "That directory holds a vault envelope, and no configured remote names " ++
  "the location — so DCTL cannot tell you which vault remote addresses it. " ++
  "Writing here as a plain filesystem path would store your data unencrypted " ++
  "beside the ciphertext. Run `dctl config import` to register the vault, " ++
  "then write through its vault remote. DCTL never switches to sealed mode on " ++
  "its own: what a command encrypts is decided by the remote name typed."

namespace Addressing

def refusal (claimed : VaultNamespace) : CliError :=
  match claimed.vault with
  | some vault =>
    (CliError.ofFatal ("'" ++ claimed.subject ++ "' is the object store for remote '" ++ vault ++
      "'")).withHint
      ("Use `" ++ vault ++ ":` to store data sealed — every write through it is " ++
        "encrypted, and no flag turns that off. To copy the objects already " ++
        "stored there exactly as they are, run `dctl replicate " ++ claimed.store ++ ": " ++
        "DEST-STORE:`, which needs no vault password. DCTL will not switch " ++
        "between the two on its own: what a command encrypts is decided by
          " ++ "the remote name typed.")
  | none =>
    (CliError.ofFatal ("'" ++ claimed.subject ++ "' is the object store declared by remote '" ++
      claimed.store ++ "'")).withHint
      ("No vault remote in this configuration wraps '" ++ claimed.store ++ "', so there is " ++
        "no sealed view to write through. Run `dctl config import` to " ++
        "register the vault that owns these objects, or choose a " ++
        "destination that is not a vault's object store.")

variable {C : Type} (config : Except CliError Config) (g : Ground C)

def enclosingVault (place : List String) : Option (List String) :=
  place.inits.reverse.find? fun dir =>
    (g.disk.follow g.steps [] (dir.map .name ++ pushed vaultEnvelopeObjectKey)).isSome

def refusePlainWriteToPath (destination : String) : Except CliError Unit :=
  if destination = "" then .ok ()
  else do
    match VaultNamespace.ofPath (← config) g destination with
    | some claimed => throw (refusal claimed)
    | none =>
      match (g.realPath destination).bind (enclosingVault g) with
      | some vault =>
        throw ((CliError.ofFatal ("refusing to write plaintext into '" ++
          OsPath.ofComponents (OsPath.rootDir :: vault) ++ "': it contains a vault " ++
          "that no configured remote describes")).withHint plainWriteIntoVaultHint)
      | none => pure ()

def refusePlainWriteToRemote (remote : String) : Except CliError Unit := do
  match VaultNamespace.ofRemote (← config) remote with
  | some claimed => .error (refusal claimed)
  | none => .ok ()

def refusePlainWrite : RemoteSpec → Except CliError Unit
  | .named remote _ => refusePlainWriteToRemote config remote
  | .local path => refusePlainWriteToPath config g path

end Addressing

/-- The system takes a path to a place, over no more links than the resolver follows. -/
def Ground.Names {C : Type} (g : Ground C) (path : String) (place : List String) : Prop :=
  ∃ via, g.disk.Leads g.cwd (hops path) via place ∧ via.length ≤ pathSymlinkResolutionLimit

section Paths

variable {C : Type} {config : Config} {g : Ground C} {name path dir : String}
  {root place : List String}

theorem Ground.Names.realPath (h : g.Names path place) (hpath : path ≠ "") :
    g.realPath path = some place := by
  obtain ⟨via, hleads, hlength⟩ := h
  exact Ground.realPath_eq hpath hleads hlength

theorem Config.mem_of_get {remote : RemoteDef} (h : config.get name = some remote) :
    (name, remote) ∈ config.remotes := by
  rw [Config.get, lookup_eq_some_iff] at h
  obtain ⟨before, after, hremotes, -⟩ := h
  rw [hremotes]
  simp

theorem mem_ancestors {text : String} {components above : List String} (h : above <+: components)
    (hne : above ≠ []) : ∃ t, (t, above) ∈ VaultNamespace.ancestors text components := by
  obtain ⟨rest, rfl⟩ := h
  by_cases hrest : rest = []
  · subst hrest
    rw [append_nil]
    exact ⟨text, mem_cons_self⟩
  · refine ⟨OsPath.ofComponents above, mem_cons_of_mem _ (mem_map.mpr ⟨above, ?_, rfl⟩)⟩
    rw [mem_filter, mem_reverse, mem_inits, dropLast_append_of_ne_nil hrest]
    exact ⟨prefix_append _ _, decide_eq_true hne⟩

theorem mem_spellings (hreal : g.realPath path = some root) (hpre : place <+: root) :
    ∃ text, (text, OsPath.rootDir :: place) ∈ VaultNamespace.spellings g path := by
  rw [VaultNamespace.spellings, hreal]
  obtain ⟨text, hmem⟩ := @mem_ancestors (OsPath.ofComponents (OsPath.rootDir :: root)) _ _
    (prefix_cons_inj OsPath.rootDir |>.mpr hpre) (cons_ne_nil _ _)
  exact ⟨text, mem_append_right _ hmem⟩

theorem not_prefix_of_ofPath (h : VaultNamespace.ofPath config g path = none) (hpath : path ≠ "")
    (hstore : config.get name = some (.local dir true)) (hdir : dir ≠ "")
    (hroot : g.Names path root) (hplace : g.Names dir place) : ¬place <+: root := by
  intro hpre
  obtain ⟨text, hmem⟩ := mem_spellings (hroot.realPath hpath) hpre
  rw [VaultNamespace.ofPath, if_neg hpath, List.findSome?_eq_none_iff] at h
  have hnone := h _ hmem
  rw [Option.map_eq_none_iff, List.find?_eq_none] at hnone
  have hreal : VaultNamespace.configuredReal g (.local dir true) =
      some (Location.ofPath (OsPath.rootDir :: place)) := by
    rw [VaultNamespace.configuredReal, hplace.realPath hdir]
    rfl
  have hin : (⟨name, ⟨providerLocal ++ remoteSeparator ++ dir⟩,
      some (Location.ofPath (OsPath.rootDir :: place))⟩ : Store) ∈
        VaultNamespace.vaultOnlyStores config g := by
    rw [VaultNamespace.vaultOnlyStores, mem_filterMap]
    refine ⟨_, Config.mem_of_get hstore, ?_⟩
    simp only [RemoteDef.requireVault, if_true, hreal]
    simp [Location.of, Location.fields, RemoteDef.typeName]
  apply hnone _ hin
  simp [Store.is]

theorem ofPath_eq_none (h : Addressing.refusePlainWriteToPath (.ok config) g path = .ok ())
    (hpath : path ≠ "") : VaultNamespace.ofPath config g path = none := by
  cases hof : VaultNamespace.ofPath config g path with
  | none => rfl
  | some claimed =>
    rw [Addressing.refusePlainWriteToPath, if_neg hpath] at h
    simp only [ok_bind, hof] at h
    cases h

theorem location_ne_of_valid (hvalid : config.vaultOnlyLocations = .ok ()) {plain store : RemoteDef}
    {remote : String} (hplain : config.get remote = some plain) (hflag : plain.requireVault = false)
    (hstore : config.get name = some store) (hdeclared : store.requireVault = true)
    {location : Location} (hlocation : Location.of plain = some location) :
    Location.of store ≠ some location := by
  intro hsame
  have hguarded : (location, name) ∈ config.guarded := by
    rw [Config.guarded, mem_filterMap]
    exact ⟨_, Config.mem_of_get hstore, by simp [hdeclared, hsame]⟩
  obtain ⟨guard, hguard⟩ : ∃ guard, config.guarded.lookup location = some guard := by
    rw [← Option.isSome_iff_exists, ← Option.ne_none_iff_isSome, Ne, lookup_eq_none_iff]
    intro hno
    have := hno _ hguarded
    simp at this
  rw [Config.vaultOnlyLocations] at hvalid
  split at hvalid
  · cases hvalid
  · rename_i hnone
    rw [List.findSome?_eq_none_iff] at hnone
    have := hnone _ (Config.mem_of_get hplain)
    simp [hflag, hlocation, hguard] at this

/-- Where a transfer puts a file of the source tree below the place `root`, when the file's
directories go over no link there. -/
def Ground.Puts (g : Ground C) (root dirs : List String) (n : String) (slot : List String) : Prop :=
  ∃ dir, g.disk.Leads root (dirs.map .name) [] dir ∧ slot = dir ++ [n]

theorem Ground.Puts.root_prefix {dirs slot : List String} {n : String}
    (h : g.Puts root dirs n slot) :
    root <+: slot := by
  obtain ⟨dir, hleads, rfl⟩ := h
  exact (Disk.prefix_of_leads_names hleads).trans (prefix_append _ _)

/-- A destination that is accepted as a path leads neither to a declared store nor below one, so a
file goes into the store only where the store lies below the destination.  One that is accepted as a
configured remote is no declared store and is not at the place of one. -/
theorem plain_write_outside_stores {dest : RemoteSpec} {store : RemoteDef}
    (hvalid : config.vaultOnlyLocations = .ok ())
    (h : Addressing.refusePlainWrite (.ok config) g dest = .ok ())
    (hstore : config.get name = some store) (hdeclared : store.requireVault = true) :
    match dest with
    | .local path => ∀ dir root place, path ≠ "" → store = .local dir true → dir ≠ "" →
        g.Names path root → g.Names dir place →
          ¬place <+: root ∧ ∀ dirs n slot, g.Puts root dirs n slot → place <+: slot →
            root <+: place ∧ root ≠ place
    | .named remote _ => ∀ plain location, config.get remote = some plain →
        Location.of plain = some location →
          plain.requireVault = false ∧ Location.of store ≠ some location := by
  cases dest with
  | «local» path =>
    rintro dir root place hpath rfl hdir hroot hplace
    have hno : ¬place <+: root :=
      not_prefix_of_ofPath (ofPath_eq_none h hpath) hpath hstore hdir hroot hplace
    refine ⟨hno, ?_⟩
    intro dirs n slot hputs hslot
    refine ⟨(List.prefix_or_prefix_of_prefix hputs.root_prefix hslot).resolve_right hno, ?_⟩
    rintro rfl
    exact hno (prefix_refl _)
  | named remote path =>
    intro plain location hplain hlocation
    have hflag : plain.requireVault = false := by
      cases hflag : plain.requireVault with
      | false => rfl
      | true =>
        rw [Addressing.refusePlainWrite, Addressing.refusePlainWriteToRemote] at h
        simp only [ok_bind, VaultNamespace.ofRemote, hplain, Option.any_some, hflag, if_true] at h
        cases h
    exact ⟨hflag, location_ne_of_valid hvalid hplain hflag hstore hdeclared hlocation⟩

def initialised : Config :=
  ⟨[("archive-store", .local "/srv/vault" true), ("archive", .vault "archive-store")], by decide⟩

def srvGround : Ground Unit where
  disk
    | [] => some .dir
    | ["srv"] => some .dir
    | ["srv", "vault"] => some .dir
    | _ => none
  cwd := []
  steps := 4096
  canonical := Disk.canonical_nil

theorem names_srv {path : String} {place : List String}
    (h : hops path = .root :: place.map .name) : srvGround.Names path place := by
  have hno : ∀ q t, srvGround.disk q ≠ some (.link t) := by
    intro q t
    rw [srvGround]
    simp only
    split <;> exact nofun
  have hleads : srvGround.disk.Leads srvGround.cwd (hops path) [] place :=
    h ▸ .root (Disk.leads_names fun q _ => hno q)
  exact ⟨[], hleads, Nat.zero_le _⟩

/-- The directory above a store is accepted, and a file whose path goes through the store lands in
it. -/
theorem plain_write_below :
    initialised.vaultOnlyLocations = .ok () ∧
      initialised.get "archive-store" = some (.local "/srv/vault" true) ∧
      Addressing.refusePlainWrite (.ok initialised) srvGround (.local "/srv") = .ok () ∧
      srvGround.Names "/srv" ["srv"] ∧ srvGround.Names "/srv/vault" ["srv", "vault"] ∧
      srvGround.Puts ["srv"] ["vault"] "x" ["srv", "vault", "x"] ∧
      ["srv", "vault"] <+: ["srv", "vault", "x"] :=
  ⟨rfl, rfl, rfl, names_srv (by decide), names_srv (by decide),
    ⟨["srv", "vault"], .name nofun (.done _), rfl⟩, by decide⟩

theorem plain_write_outside_stores_srv : ¬["srv", "vault"] <+: ["srv"] :=
  (@plain_write_outside_stores Unit initialised srvGround "archive-store" (.local "/srv")
    (.local "/srv/vault" true) rfl rfl rfl rfl "/srv/vault" ["srv"] ["srv", "vault"] (by decide) rfl
    (by decide) (names_srv (by decide)) (names_srv (by decide))).1

end Paths

end Dctl.Cli
