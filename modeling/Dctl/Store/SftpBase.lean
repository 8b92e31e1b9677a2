import Dctl.Store.SftpPath

/-! Which directories an SFTP backend asks its server to create (`sftp/mod.rs`, `sftp/ops.rs`).
Whether the base itself may be created is decided once, by one `stat` when the backend connects. -/

namespace Dctl.Store.Sftp

open ProofKit List

inductive SftpError where
  | noSuchFile
  | permissionDenied
  | rejected
  | sessionLost
  deriving DecidableEq

/-- What becomes of the `stat` of the base: an answer, or the run's deadline. -/
inductive Probe where
  | answered (probed : Except SftpError Unit)
  | expired (e : StoreError)

structure SftpBackend where
  base : Text
  mayCreateBase : Bool

def isErr {ε α : Type} : Except ε α → Bool
  | .error _ => true
  | .ok _ => false

namespace SftpBackend

def overDialer (dialled : Except StoreError Unit) (base : Text) (probe : Probe) :
    Except StoreError SftpBackend := do
  dialled
  match probe with
  | .answered probed => return ⟨normalizeBase base, isErr probed⟩
  | .expired e => throw e

def mkdirP (b : SftpBackend) (remoteFile : Text) : List Text :=
  if b.mayCreateBase then ancestorDirsAtOrBelow b.base remoteFile
  else ancestorDirsBelow b.base remoteFile

end SftpBackend

/-- What happens after the connect.  `sent` is how many of a write's requests for directories reach
the server before the session is lost or the deadline ends them. -/
inductive Event where
  | write (key : Text) (sent : Nat)
  | redialled
  | baseGone
  | baseMade

/-- The directories that the server is asked to create. -/
def Event.asks (b : SftpBackend) : Event → List Text
  | .write key sent => match remotePath b.base key with
    | .error _ => []
    | .ok remote => (b.mkdirP remote).take sent
  | _ => []

def asked (b : SftpBackend) (events : List Event) : List Text := events.flatMap (·.asks b)

/-- No write sends a request for a directory: its key is refused, or the session is lost before. -/
def Unsent (events : List Event) : Prop :=
  ∀ key sent, .write key sent ∈ events → isErr (validateKey key) = true ∨ sent = 0

/-- The directory is the base, dots apart. -/
def IsBase (base dir : Text) : Prop :=
  isAbsolute dir = isAbsolute base ∧
    (segments '/' dir).filter (· ≠ ['.']) = (segments '/' base).filter (· ≠ ['.'])

/-- The directory is the base or below it, without a name that leads up. -/
def AtOrBelow (base dir : Text) : Prop :=
  isAbsolute dir = isAbsolute base ∧ ∃ names, segments '/' dir = segments '/' base ++ names ∧
    ['.', '.'] ∉ names

variable {b : SftpBackend} {events : List Event} {raw base key dir : Text} {probe : Probe}

theorem overDialer_ok (h : SftpBackend.overDialer (.ok ()) raw probe = .ok b) :
    Normalized b.base ∧ ∃ probed, probe = .answered probed ∧ b.mayCreateBase = isErr probed := by
  cases probe with
  | answered probed =>
    obtain rfl := Except.ok.inj h
    exact ⟨normalized_normalizeBase raw, probed, rfl, rfl⟩
  | expired e => cases h

theorem mkdirP_eq (b : SftpBackend) (remoteFile : Text) :
    b.mkdirP remoteFile = ancestorsUnder b.base remoteFile b.mayCreateBase := by
  unfold SftpBackend.mkdirP
  cases b.mayCreateBase <;> rfl

section

variable (hkey : Key key) {n : Nat} (hn : (segments '/' base).length ≤ n)
include hkey hn

theorem atOrBelow_take :
    AtOrBelow base
      (spelled (isAbsolute base) ((segments '/' base ++ segments '/' key).take n)) := by
  have hclean : Clean (segments '/' base ++ segments '/' key) :=
    forall_mem_append.mpr ⟨clean_segments base, clean_segments key⟩
  refine ⟨isAbsolute_spelled (hclean.take n),
    (segments '/' key).take (n - (segments '/' base).length), ?_, ?_⟩
  · rw [segments_spelled (hclean.take n), take_append, take_of_length_le hn]
  · exact fun hup => hkey.down (mem_of_mem_take hup)

theorem isBase_take :
    IsBase base (spelled (isAbsolute base) ((segments '/' base ++ segments '/' key).take n)) ↔
      n = (segments '/' base).length := by
  have hclean : Clean (segments '/' base ++ segments '/' key) :=
    forall_mem_append.mpr ⟨clean_segments base, clean_segments key⟩
  unfold IsBase
  rw [isAbsolute_spelled (hclean.take n), segments_spelled (hclean.take n), take_append,
    take_of_length_le hn, filter_append]
  constructor
  · rintro ⟨-, hsame⟩
    by_contra hne
    obtain ⟨name, rest, hfirst, hdot⟩ := hkey.first
    obtain ⟨m, hm⟩ := Nat.exists_eq_add_of_lt (Nat.lt_of_le_of_ne hn (Ne.symm hne))
    rw [hfirst, show n - (segments '/' base).length = m + 1 by omega, take_succ_cons,
      filter_cons_of_pos (by simpa using hdot)] at hsame
    simp at hsame
  · rintro rfl
    simp

end

theorem mem_mkdirP (hkey : Key key) (hdir : dir ∈ b.mkdirP (join b.base key)) :
    ∃ n, shallowest b.base b.mayCreateBase ≤ n ∧
      dir = spelled (isAbsolute b.base) ((segments '/' b.base ++ segments '/' key).take n) := by
  rw [mkdirP_eq, ancestorsUnder_eq hkey, mem_map] at hdir
  obtain ⟨n, hn, rfl⟩ := hdir
  rw [mem_range'_1] at hn
  exact ⟨n, hn.1, rfl⟩

theorem length_le_shallowest (base : Text) (includeBase : Bool) :
    (segments '/' base).length ≤ shallowest base includeBase := by
  unfold shallowest
  omega

theorem asks_write {sent : Nat} {key' : Text} (hkey : validateKey key = .ok key') :
    (Event.write key sent).asks b = (b.mkdirP (join b.base key')).take sent := by
  simp only [Event.asks, remotePath, hkey]
  rfl

theorem asks_refused {sent : Nat} {e : StoreError} (hkey : validateKey key = .error e) :
    (Event.write key sent).asks b = [] := by
  simp only [Event.asks, remotePath, hkey]
  rfl

theorem mem_asks {event : Event} (h : dir ∈ event.asks b) :
    ∃ key key' sent, event = .write key sent ∧
    validateKey key = .ok key' ∧ sent ≠ 0 ∧ dir ∈ b.mkdirP (join b.base key') := by
  cases event with
  | write key sent =>
    cases hkey : validateKey key with
    | error e =>
      rw [asks_refused hkey] at h
      cases h
    | ok key' =>
      rw [asks_write hkey] at h
      refine ⟨key, key', sent, rfl, hkey, ?_, mem_of_mem_take h⟩
      rintro rfl
      cases h
  | _ => cases h

theorem atOrBelow_of_mem_asked (h : dir ∈ asked b events) : AtOrBelow b.base dir := by
  obtain ⟨event, -, hdir⟩ := mem_flatMap.mp h
  obtain ⟨_, key, _, -, hkey, -, hmem⟩ := mem_asks hdir
  obtain ⟨n, hn, rfl⟩ := mem_mkdirP (validateKey_ok hkey) hmem
  exact atOrBelow_take (validateKey_ok hkey) (Nat.le_trans (length_le_shallowest _ _) hn)

theorem head?_mkdirP (hbase : Normalized b.base) (hkey : Key key) (hmay : b.mayCreateBase = true)
    (hnames : segments '/' b.base ≠ []) : (b.mkdirP (join b.base key)).head? = some b.base := by
  have hdepth : 0 < (segments '/' b.base).length := length_pos_iff.mpr hnames
  have hfirst : shallowest b.base b.mayCreateBase = (segments '/' b.base).length := by
    rw [shallowest, hmay, if_pos rfl]
    omega
  obtain ⟨name, rest, hsegs, -⟩ := hkey.first
  rw [mkdirP_eq, ancestorsUnder_eq hkey, hfirst, List.head?_map, List.head?_range', if_neg,
    Option.map_some, take_left' rfl]
  · exact congrArg some hbase
  · rw [hsegs, length_cons]
    omega

/-- The base is asked for in a run exactly when the backend may create it, it has a name to ask for,
and some write sends a request. -/
theorem exists_isBase_iff (hbase : Normalized b.base) :
    (∃ dir ∈ asked b events, IsBase b.base dir) ↔
    b.mayCreateBase = true ∧ segments '/' b.base ≠ [] ∧ ¬ Unsent events := by
  constructor
  · rintro ⟨dir, hdir, hisBase⟩
    obtain ⟨event, hevent, hmem⟩ := mem_flatMap.mp hdir
    obtain ⟨key, key', sent, rfl, hkey, hsent, hmkdir⟩ := mem_asks hmem
    obtain ⟨n, hn, rfl⟩ := mem_mkdirP (validateKey_ok hkey) hmkdir
    have hdepth :=
      (isBase_take (validateKey_ok hkey) (Nat.le_trans (length_le_shallowest _ _) hn)).mp hisBase
    unfold shallowest at hn
    refine ⟨?_, ?_, fun hunsent => ?_⟩
    · by_contra hmay
      rw [if_neg hmay] at hn
      omega
    · intro hnil
      rw [hnil] at hn hdepth
      simp at hdepth
      omega
    · rcases hunsent key sent hevent with herr | hzero
      · rw [hkey] at herr
        cases herr
      · exact hsent hzero
  · rintro ⟨hmay, hnames, hsent⟩
    unfold Unsent at hsent
    push Not at hsent
    obtain ⟨key, sent, hevent, hvalid, hpos⟩ := hsent
    cases hkey : validateKey key with
    | error e =>
      rw [hkey] at hvalid
      exact absurd rfl hvalid
    | ok key' =>
      refine ⟨b.base, mem_flatMap.mpr ⟨_, hevent, ?_⟩, rfl, rfl⟩
      rw [asks_write hkey]
      have hhead := head?_mkdirP hbase (validateKey_ok hkey) hmay hnames
      obtain ⟨m, rfl⟩ := Nat.exists_eq_succ_of_ne_zero hpos
      obtain ⟨rest, hrest⟩ := List.head?_eq_some_iff.mp hhead
      rw [hrest, take_succ_cons]
      exact mem_cons_self

/-- Nothing above the base is ever asked for.  A base that was there when the backend connected is
left alone exactly if its `stat` said so, it has no name to ask for, or no write sends a request. -/
theorem base_left_alone (h : SftpBackend.overDialer (.ok ()) raw probe = .ok b) (there : Bool)
    (events : List Event) :
    ((there = true → ∀ dir ∈ asked b events, ¬ IsBase b.base dir) ↔
      (there = true → probe = .answered (.ok ()) ∨ segments '/' b.base = [] ∨ Unsent events)) ∧
    ∀ dir ∈ asked b events, AtOrBelow b.base dir := by
  obtain ⟨hbase, probed, rfl, hmay⟩ := overDialer_ok h
  refine ⟨imp_congr_right fun _ => ?_, fun dir hdir => atOrBelow_of_mem_asked hdir⟩
  have hasked := @exists_isBase_iff b events hbase
  have hprobed : b.mayCreateBase = true ↔ Probe.answered probed ≠ .answered (.ok ()) := by
    rw [hmay]
    cases probed with
    | error e => simp [isErr]
    | ok u => simp [isErr]
  rw [hprobed] at hasked
  rw [← not_iff_not]
  push Not
  exact hasked

/-- A base that is there. -/
theorem base_left_alone_present :
    (true = true → ∀ dir ∈ asked ⟨['s'], false⟩ [.write ['a'] 1], ¬ IsBase ['s'] dir) ∧
      ∀ dir ∈ asked ⟨['s'], false⟩ [.write ['a'] 1], AtOrBelow ['s'] dir := by
  have h := @base_left_alone ⟨['s'], false⟩ ['s'] (.answered (.ok ())) rfl true [.write ['a'] 1]
  exact ⟨h.1.mpr fun _ => .inl rfl, h.2⟩

/-- The `stat` of a base that is there is refused, and after the base was renamed away a write asks
for it again. -/
theorem base_asked_again : ∃ b, SftpBackend.overDialer (.ok ()) "/srv/store".toList
      (.answered (.error .permissionDenied)) = .ok b ∧
    b.base ∈ asked b [.baseGone, .write "a.txt".toList 1] :=
  ⟨⟨"/srv/store".toList, true⟩, rfl, by decide⟩

end Dctl.Store.Sftp
