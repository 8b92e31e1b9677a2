import Dctl.Mount.SpillTamper

/-! What is read of a spill whose backing file is altered between its operations. -/

namespace Dctl.Mount

open ProofKit Crypto Cli List Function

variable {ι : Type} [DecidableEq ι]

/-- What happens to a spill: its calls, those of its readers, and any change of the backing file. -/
inductive SpillEvent (ι : Type) where
  | call (call : SpillCall)
  | alter (file : Bytes)
  | makeReader (i : ι)
  | read (i : ι) (n : Nat)
  | seek (i : ι) (dest : SpillReader.SeekFrom)

structure Exposed (ι : Type) where
  run : Logged
  readers : ι → Option SpillReader

namespace Exposed

def new (key : Key) : Exposed ι := ⟨.new key, fun _ => none⟩

def readerAt (w : Exposed ι) (i : ι) : Option SpillReader :=
  (w.readers i).map fun reader => { reader with file := w.run.spill.file }

def setReader (w : Exposed ι) (i : ι) (reader : SpillReader) : Exposed ι :=
  { w with readers := update w.readers i (some reader) }

def next (P : Primitives) (rng : Nat → Nonce) (w : Exposed ι) : SpillEvent ι → Exposed ι
  | .call call => { w with run := w.run.after P rng ⟨call, none⟩ }
  | .alter file => { w with run.spill.file := file }
  | .makeReader i => w.setReader i w.run.spill.reader
  | .read i n => match w.readerAt i with
    | none => w
    | some reader => match reader.read P n with
      | .ok (_, reader) => w.setReader i reader
      | .error _ => w
  | .seek i dest => match w.readerAt i with
    | none => w
    | some reader => match reader.seek dest with
      | .ok reader => w.setReader i reader
      | .error _ => w

end Exposed

/-- Something holds wherever an event of a run happens. -/
def Along (P : Primitives) (rng : Nat → Nonce) (p : Exposed ι → SpillEvent ι → Prop) :
    Exposed ι → List (SpillEvent ι) → Prop
  | _, [] => True
  | w, event :: events => p w event ∧ Along P rng p (w.next P rng event) events

/-- A read has something to hand out, and not from the frame that is at hand. -/
def SpillReader.Loads (r : SpillReader) (n : Nat) : Prop :=
  r.position < r.len ∧ n ≠ 0 ∧ r.frameIndex ≠ r.position / frameLen

/-- The frames that an event takes from the file are the last ones of their slots, if they are
whole, and a call finds none that is cut short. -/
def Exposed.Upheld (w : Exposed ι) : SpillEvent ι → Prop
  | .call call => ∀ index, call.Reads w.run.spill.len index →
      w.run.Current index ∧ w.run.spill.Covers index
  | .read i n => ∀ reader, w.readerAt i = some reader → reader.Loads n →
      w.run.Current (reader.position / frameLen)
  | _ => True

/-- Bytes of the content at the position, at most `n`, and none only at its end. -/
def ReadOf (content : Bytes) (position n : Nat) (bytes : Bytes) : Prop :=
  bytes.length ≤ n ∧ bytes = readAt content position bytes.length ∧
    (bytes = [] → n = 0 ∨ content.length ≤ position)

/-- What an event does to the content and to the contents since each reader was made. -/
def Explains (P : Primitives) (rng : Nat → Nonce) (w : Exposed ι) (content : Bytes)
    (since : ι → List Bytes) (content' : Bytes) (since' : ι → List Bytes) : SpillEvent ι → Prop
  | .call call => since' = (fun i => content' :: since i) ∧
      match SpillIo.call P rng none call w.run with
      | .ok _ _ => content' = flatCall content call
      | .error _ _ => call.Leaves content content'
  | .makeReader i => content' = content ∧ since' = update since i [content]
  | .read i n => content' = content ∧ since' = since ∧ ∀ reader, w.readerAt i = some reader →
      ∀ bytes reader', reader.read P n = .ok (bytes, reader') →
        ∃ c ∈ since i, ReadOf c reader.position n bytes
  | _ => content' = content ∧ since' = since

/-- Every event of a run is explained by what was written. -/
def Explained (P : Primitives) (rng : Nat → Nonce) (content : Bytes) (since : ι → List Bytes) :
    Exposed ι → List (SpillEvent ι) → Prop
  | _, [] => True
  | w, event :: events => ∃ content' since', Explains P rng w content since content' since' event ∧
      Explained P rng content' since' (w.next P rng event) events

variable {P : Primitives} {rng : Nat → Nonce} {content content' : Bytes}
  {history : List Bytes} {since : ι → List Bytes} {r r' : Logged} {reader reader' : SpillReader}
  {w : Exposed ι} {index : Nat}

/-- The frames that the reader has or can load are of contents since it was made. -/
structure Watches (history : List Bytes) (r : Logged) (reader : SpillReader) : Prop where
  key : reader.key = r.spill.key
  atHand : reader.frameIndex = 2 ^ 64 - 1 ∨ ∃ c ∈ history,
    reader.frame = frameOf c reader.frameIndex
  last : ∀ index, index * frameLen < reader.len →
    ∃ f, r.last index = some f ∧ ∃ c ∈ history, f.plaintext = frameOf c index
  made : ∃ c ∈ history, c.length = reader.len
  bound : reader.len < 2 ^ 64

namespace Watches

theorem new (h : Remembers P content r) (hlen : r.spill.len = content.length)
    (hbound : r.spill.len < 2 ^ 64) : Watches [content] r r.spill.reader where
  key := rfl
  atHand := .inl rfl
  last index hin := by
    have hin' : index * frameLen < content.length := by
      rw [← hlen]
      exact hin
    obtain ⟨f, hf, hplain⟩ := h.last index hin'
    exact ⟨f, hf, content, mem_singleton_self _, hplain⟩
  made := ⟨content, mem_singleton_self _, hlen.symm⟩
  bound := hbound

section

variable (h : Watches history r reader)
include h

theorem evolves (hevolves : Evolves P content' r r') :
    Watches (content' :: history) r' reader where
  key := h.key.trans hevolves.key.symm
  atHand := h.atHand.imp_right fun ⟨c, hc, hframe⟩ => ⟨c, mem_cons_of_mem _ hc, hframe⟩
  last index hin := by
    rcases hevolves.touched index with hsame | ⟨f, hf, hplain⟩
    · obtain ⟨f, hf, c, hc, hplain⟩ := h.last index hin
      exact ⟨f, hsame.trans hf, c, mem_cons_of_mem _ hc, hplain⟩
    · exact ⟨f, hf, content', mem_cons_self, hplain⟩
  made := h.made.imp fun c ⟨hc, hlen⟩ => ⟨mem_cons_of_mem _ hc, hlen⟩
  bound := h.bound

theorem onFile (file : Bytes) :
    Watches history r { reader with file } := ⟨h.key, h.atHand, h.last, h.made, h.bound⟩

theorem altered (file : Bytes) :
    Watches history { r with spill.file := file } reader :=
      ⟨h.key, h.atHand, h.last, h.made, h.bound⟩

theorem seek {dest : SpillReader.SeekFrom} (hseek : reader.seek dest = .ok reader') :
    Watches history r reader' := by
  obtain ⟨position, rfl⟩ := SpillReader.seek_ok hseek
  exact ⟨h.key, h.atHand, h.last, h.made, h.bound⟩

end

theorem load (hP : P.Lawful) (hr : Remembers P content r) (hauthentic : r.Authentic P)
    (hcurrent : reader.frameIndex ≠ index → r.Current index) (h : Watches history r reader)
    (hfile : reader.file = r.spill.file) (hin : index * frameLen < reader.len)
    (hload : reader.load P index = .ok reader') :
    Watches history r reader' ∧ reader'.position = reader.position ∧ reader'.len = reader.len ∧
      ∃ c ∈ history, reader'.frame = frameOf c index := by
  unfold SpillReader.load at hload
  by_cases hsame : reader.frameIndex = index
  · rw [if_pos hsame] at hload
    obtain rfl := Except.ok.inj hload
    refine ⟨h, rfl, rfl, ?_⟩
    rcases h.atHand with hnone | ⟨c, hc, hframe⟩
    · have hbound := h.bound
      simp only [frameLen] at hin
      omega
    · exact ⟨c, hc, hsame ▸ hframe⟩
  · rw [if_neg hsame, h.key, hfile] at hload
    cases hopen : Aead.decrypt P r.spill.key
      (readAt r.spill.file (index * slotLen) (blobLen index reader.len)) (frameAad index) with
    | error e =>
      simp only [hopen] at hload
      cases hload
    | ok plaintext =>
      simp only [hopen] at hload
      obtain rfl := Except.ok.inj hload
      obtain ⟨f, hf, rfl, -⟩ := hr.opened hP hauthentic (hcurrent hsame) hopen
      obtain ⟨g, hg, c, hc, hframe⟩ := h.last index hin
      obtain rfl := Option.some.inj (hf.symm.trans hg)
      exact ⟨⟨rfl, .inr ⟨c, hc, hframe⟩, h.last, h.made, h.bound⟩, rfl, rfl, c, hc, hframe⟩

theorem read (hP : P.Lawful) (hr : Remembers P content r) (hauthentic : r.Authentic P)
    (h : Watches history r reader) (hfile : reader.file = r.spill.file)
    {n : Nat} (hcurrent : reader.Loads n → r.Current (reader.position / frameLen)) {bytes : Bytes}
    (hread : reader.read P n = .ok (bytes, reader')) :
    Watches history r reader' ∧ ∃ c ∈ history, ReadOf c reader.position n bytes := by
  unfold SpillReader.read at hread
  by_cases hend : reader.len ≤ reader.position ∨ n = 0
  · rw [if_pos hend] at hread
    obtain ⟨rfl, rfl⟩ := Prod.mk.inj (Except.ok.inj hread)
    obtain ⟨c, hc, hlen⟩ := h.made
    refine ⟨h, c, hc, Nat.zero_le _, rfl, fun _ => ?_⟩
    rw [hlen]
    exact hend.symm
  · rw [if_neg hend] at hread
    obtain ⟨hmore, hsome⟩ := not_or.mp hend
    have hin : reader.position / frameLen * frameLen < reader.len :=
      Nat.lt_of_le_of_lt (Nat.div_mul_le_self ..) (Nat.lt_of_not_le hmore)
    obtain ⟨loaded, hload, hread⟩ := bind_eq_ok.mp hread
    obtain ⟨hwatches, hposition, hlen, c, hc, hframe⟩ := load hP hr hauthentic
      (fun hother => hcurrent ⟨Nat.lt_of_not_le hmore, hsome, hother⟩) h hfile hin hload
    obtain ⟨rfl, rfl⟩ := Prod.mk.inj (Except.ok.inj hread)
    refine ⟨⟨hwatches.key, hwatches.atHand, hwatches.last, hwatches.made, hwatches.bound⟩, c,
      hc, ?_⟩
    rw [hposition, hlen, hframe]
    obtain ⟨count, hcount⟩ : ∃ count, count = min (min ((frameOf c
        (reader.position / frameLen)).length - reader.position % frameLen)
          (reader.len - reader.position)) n := ⟨_, rfl⟩
    have hle : count ≤ frameLen - reader.position % frameLen := by
      rw [hcount, length_frameOf]
      exact (Nat.min_le_left _ n).trans ((Nat.min_le_left ..).trans
        (Nat.sub_le_sub_right (Nat.min_le_left ..) _))
    have hlong : (readAt c reader.position count).length = count := by
      have hdiv := Nat.div_add_mod reader.position frameLen
      rw [Nat.mul_comm] at hdiv
      rw [length_readAt, Nat.min_eq_left]
      rw [hcount, length_frameOf]
      omega
    rw [← hcount, take_drop_frameOf c reader.position hle]
    refine ⟨?_, by rw [hlong], fun hnone => ?_⟩
    · rw [hlong, hcount]
      exact Nat.min_le_right ..
    · rw [hnone, length_nil, hcount, length_frameOf] at hlong
      have hdiv := Nat.div_add_mod reader.position frameLen
      have hmod := Nat.mod_lt reader.position (show 0 < frameLen by decide)
      rw [Nat.mul_comm] at hdiv
      omega

end Watches

/-- The log of sealed frames and the readers agree with the contents. -/
structure Exposed.Holds (P : Primitives) (content : Bytes) (since : ι →
    List Bytes) (w : Exposed ι) :
    Prop where
  remembers : Remembers P content w.run
  len : w.run.spill.len = content.length
  readers : ∀ i reader, w.readers i = some reader → Watches (since i) w.run reader

theorem remembers_new (P : Primitives) (key : Key) : Remembers P [] (.new key) :=
  ⟨fun _ hf => absurd hf not_mem_nil, fun _ hi => absurd hi (Nat.not_lt_zero _)⟩

omit [DecidableEq ι] in
theorem holds_new (P : Primitives) (key : Key) (since : ι → List Bytes) :
    (Exposed.new key : Exposed ι).Holds P [] since :=
  ⟨remembers_new P key, rfl, fun _ _ h => absurd h (Option.some_ne_none _).symm⟩

theorem Exposed.readers_setReader (w : Exposed ι) (i j : ι) (reader : SpillReader) :
    (w.setReader i reader).readers j = if j = i then some reader else w.readers j :=
  update_apply w.readers i (some reader) j

theorem Exposed.next_read (P : Primitives) (rng : Nat → Nonce) (w : Exposed ι) (i : ι) (n : Nat) :
    w.next P rng (.read i n) = w ∨ ∃ reader bytes reader', w.readerAt i = some reader ∧
      reader.read P n = .ok (bytes, reader') ∧
        w.next P rng (.read i n) = w.setReader i reader' := by
  simp only [Exposed.next]
  cases hreader : w.readerAt i with
  | none => exact .inl rfl
  | some reader =>
    dsimp only
    cases hread : reader.read P n with
    | error e => exact .inl rfl
    | ok result => exact .inr ⟨reader, result.1, result.2, rfl, hread, rfl⟩

theorem Exposed.next_seek (P : Primitives) (rng : Nat → Nonce) (w : Exposed ι) (i : ι)
    (dest : SpillReader.SeekFrom) : w.next P rng (.seek i dest) = w ∨ ∃ reader reader',
      w.readerAt i = some reader ∧ reader.seek dest = .ok reader' ∧
        w.next P rng (.seek i dest) = w.setReader i reader' := by
  simp only [Exposed.next]
  cases hreader : w.readerAt i with
  | none => exact .inl rfl
  | some reader =>
    dsimp only
    cases hseek : reader.seek dest with
    | error e => exact .inl rfl
    | ok reader' => exact .inr ⟨reader, reader', rfl, hseek, rfl⟩

namespace Exposed.Holds

variable {w : Exposed ι} {since : ι → List Bytes}

theorem setReader (h : w.Holds P content since) {i : ι} (hreader : Watches history w.run reader) :
    (w.setReader i reader).Holds P content (update since i history) := by
  refine ⟨h.remembers, h.len, fun j other hj => ?_⟩
  rw [Exposed.readers_setReader] at hj
  by_cases hsame : j = i
  · rw [if_pos hsame] at hj
    rw [hsame, update_self, ← Option.some.inj hj]
    exact hreader
  · rw [if_neg hsame] at hj
    rw [update_of_ne hsame]
    exact h.readers j other hj

omit [DecidableEq ι] in
theorem readerAt (h : w.Holds P content since) {i : ι} (hreader : w.readerAt i = some reader) :
    Watches (since i) w.run reader ∧ reader.file = w.run.spill.file := by
  obtain ⟨stored, hstored, rfl⟩ := Option.map_eq_some_iff.mp hreader
  exact ⟨(h.readers i stored hstored).onFile _, rfl⟩

omit [DecidableEq ι] in
theorem evolves (h : w.Holds P content since) (hevolves : Evolves P content' w.run r')
    (hlen : r'.spill.len = content'.length) :
    Exposed.Holds P content' (fun i => content' :: since i) { w with run := r' } :=
  ⟨hevolves.remembers, hlen, fun i reader hi => (h.readers i reader hi).evolves hevolves⟩

section

variable (hP : P.Lawful) (rng : Nat → Nonce) (h : w.Holds P content since)
  (hauthentic : w.run.Authentic P)
include hP h hauthentic

theorem call (call : SpillCall) (hupheld : w.Upheld (.call call)) :
    ∃ content', Explains P rng w content since content' (fun i => content' :: since i)
      (.call call) ∧
      (w.next P rng (.call call)).Holds P content' fun i => content' :: since i := by
  rcases @Remembers.call P rng content w.run hP h.remembers h.len hauthentic call hupheld with
    ⟨r', hcall, hevolves, hlen⟩ | ⟨e, r', content', hcall, hleaves, hevolves, hlen⟩
  · have hnext : w.next P rng (.call call) = { w with run := r' } := by
      simp only [Exposed.next, Logged.after, hcall]
    refine ⟨flatCall content call, ⟨rfl, ?_⟩, ?_⟩
    · rw [hcall]
    · rw [hnext]
      exact h.evolves hevolves hlen
  · have hnext : w.next P rng (.call call) = { w with run := r' } := by
      simp only [Exposed.next, Logged.after, hcall]
    refine ⟨content', ⟨rfl, ?_⟩, ?_⟩
    · rw [hcall]
      exact hleaves
    · rw [hnext]
      exact h.evolves hevolves hlen

theorem read {i : ι} {n : Nat} (hupheld : w.Upheld (.read i n)) :
    Explains P rng w content since content since (.read i n) ∧
      (w.next P rng (.read i n)).Holds P content since := by
  have hread : ∀ reader, w.readerAt i = some reader → ∀ bytes reader',
      reader.read P n = .ok (bytes, reader') →
        Watches (since i) w.run reader' ∧ ∃ c ∈ since i, ReadOf c reader.position n bytes := by
    intro reader hreader bytes reader' hread
    obtain ⟨hwatches, hfile⟩ := h.readerAt hreader
    exact hwatches.read hP h.remembers hauthentic hfile (hupheld reader hreader) hread
  refine ⟨⟨rfl, rfl, fun reader hreader bytes reader' hok =>
    (hread reader hreader bytes reader' hok).2⟩, ?_⟩
  rcases w.next_read P rng i n with hsame | ⟨reader, bytes, reader', hreader, hok, hnext⟩
  · rwa [hsame]
  · rw [hnext, ← update_eq_self i since]
    exact h.setReader (hread reader hreader bytes reader' hok).1

end

theorem seek (h : w.Holds P content since) (rng : Nat → Nonce) (i : ι)
    (dest : SpillReader.SeekFrom) :
    (w.next P rng (.seek i dest)).Holds P content since := by
  rcases w.next_seek P rng i dest with hsame | ⟨reader, reader', hreader, hseek, hnext⟩
  · rwa [hsame]
  · rw [hnext, ← update_eq_self i since]
    exact h.setReader ((h.readerAt hreader).1.seek hseek)

theorem next (hP : P.Lawful) (rng : Nat → Nonce) (h : w.Holds P content since)
    (hauthentic : w.run.Authentic P) (hbound : w.run.spill.len < 2 ^ 64) {event : SpillEvent ι}
    (hupheld : w.Upheld event) :
    ∃ content' since', Explains P rng w content since content' since' event ∧
      (w.next P rng event).Holds P content' since' := by
  cases event with
  | call call =>
    obtain ⟨content', hexplains, hholds⟩ := h.call hP rng hauthentic call hupheld
    exact ⟨content', _, hexplains, hholds⟩
  | alter file =>
    exact ⟨content, since, ⟨rfl, rfl⟩, ⟨h.remembers.made, h.remembers.last⟩, h.len,
      fun i reader hi => (h.readers i reader hi).altered file⟩
  | makeReader i => exact ⟨content, _, ⟨rfl, rfl⟩, h.setReader (.new h.remembers h.len hbound)⟩
  | read i n =>
    obtain ⟨hexplains, hholds⟩ := h.read hP rng hauthentic hupheld
    exact ⟨content, since, hexplains, hholds⟩
  | seek i dest => exact ⟨content, since, ⟨rfl, rfl⟩, h.seek rng i dest⟩

theorem explained (hP : P.Lawful) (h : w.Holds P content since) {events : List (SpillEvent ι)}
    (hideal : Along P rng (fun w _ => w.run.Authentic P) w events)
    (hbound : Along P rng (fun w _ => w.run.spill.len < 2 ^ 64) w events)
    (hupheld : Along P rng Exposed.Upheld w events) : Explained P rng content since w events := by
  induction events generalizing w content since with
  | nil => trivial
  | cons event events ih =>
    obtain ⟨content', since', hexplains, hholds⟩ := h.next hP rng hideal.1 hbound.1 hupheld.1
    exact ⟨content', since', hexplains, ih hholds hideal.2 hbound.2 hupheld.2⟩

end Exposed.Holds

/-- However the backing file of a spill is altered between its operations: where the frames that are
read are not earlier ones of their slots, and a call finds none cut short, what is read of the spill
was written to it, or the read fails. -/
theorem explained_of_upheld (hP : P.Lawful) (rng : Nat → Nonce) (key : Key)
    (events : List (SpillEvent ι))
    (hideal : Along P rng (fun w _ => w.run.Authentic P) (.new key) events)
    (hbound : Along P rng (fun w _ => w.run.spill.len < 2 ^ 64) (.new key) events)
    (hupheld : Along P rng Exposed.Upheld (.new key) events) :
    Explained P rng [] (fun _ => []) (.new key) events :=
  (holds_new P key fun _ => []).explained hP hideal hbound hupheld

theorem lengthPrimitives_lawful : lengthPrimitives.Lawful := taggedPrimitives_lawful

def numbered (k : Nat) : Nonce := .replicate nonceLen (UInt8.ofNat k)

def lengthSealed (k : Nat) (plaintext : Bytes) : Bytes :=
  (numbered k).bytes ++ plaintext ++ .replicate tagLen (UInt8.ofNat plaintext.length)

def oneByte (file : Bytes) : Logged where
  spill := ⟨file, .replicate keyLen 0, 1, 1⟩
  frames := [⟨0, [1], lengthSealed 0 [1]⟩]

def sealedAgain (plaintext file : Bytes) : Logged where
  spill := ⟨file, .replicate keyLen 0, plaintext.length, 2⟩
  frames := ⟨0, plaintext, lengthSealed 1 plaintext⟩ :: (oneByte file).frames

theorem authentic_of_nil (h : r.spill.file = []) : r.Authentic P := by
  intro index n plaintext hopen
  rw [h, readAt, drop_nil, take_nil] at hopen
  cases hopen

theorem authentic_of_slot {f : SealedFrame} (hf : f ∈ r.frames) (hindex : f.index = 0)
    (hfile : r.spill.file = f.blob) (hlen : f.blob.length ≤ slotLen)
    (hfails : ∀ n, overhead ≤ n → n < f.blob.length →
      ∃ e, Aead.decrypt P r.spill.key (f.blob.take n) (frameAad 0) = .error e) : r.Authentic P := by
  intro index n plaintext hopen
  rw [hfile] at hopen ⊢
  cases index with
  | zero =>
    refine ⟨f, hf, hindex, ?_⟩
    rw [Nat.zero_mul, readAt, drop_zero] at hopen ⊢
    rcases Nat.lt_or_ge n f.blob.length with hless | hall
    · rcases Nat.lt_or_ge n overhead with hshort | hlong
      · simp only [Aead.decrypt, bind_eq_ok, reject_eq_ok, length_take, nonceLen, tagLen] at hopen
        simp only [overhead] at hshort
        omega
      · obtain ⟨e, herror⟩ := hfails n hlong hless
        cases hopen.symm.trans herror
    · rw [take_of_length_le hall]
  | succ index =>
    have hpast : f.blob.length ≤ (index + 1) * slotLen := by
      rw [Nat.succ_mul]
      exact Nat.le_add_left_of_le hlen
    rw [readAt, drop_of_length_le hpast, take_nil] at hopen
    cases hopen

theorem write_oneByte : SpillIo.call lengthPrimitives numbered none (.write 0 [1])
    (.new (.replicate keyLen 0)) = .ok () (oneByte (lengthSealed 0 [1])) := by
  have hpatch : SpillIo.patch lengthPrimitives numbered none 0 [1] (.new (.replicate keyLen 0)) =
      .ok () { oneByte (lengthSealed 0 [1]) with spill.len := 0 } := by rfl
  have hone : Spill.takeLen 0 ([1] : Bytes).length = ([1] : Bytes).length := by decide
  have hwrite := SpillIo.writeAt_one (Nat.zero_le _) (cons_ne_nil 1 []) hone hpatch
  exact hwrite

theorem write_again : SpillIo.call lengthPrimitives numbered none (.write 0 [2])
    (oneByte (lengthSealed 0 [1])) = .ok () (sealedAgain [2] (lengthSealed 1 [2])) := by
  have hpatch : SpillIo.patch lengthPrimitives numbered none 0 [2] (oneByte (lengthSealed 0 [1])) =
      .ok () (sealedAgain [2] (lengthSealed 1 [2])) := by rfl
  have hone : Spill.takeLen 0 ([2] : Bytes).length = ([2] : Bytes).length := by decide
  have hwrite := SpillIo.writeAt_one (Nat.zero_le _) (cons_ne_nil 2 []) hone hpatch
  exact hwrite

theorem write_lost : SpillIo.call lengthPrimitives numbered none (.write 1 [3]) (oneByte []) =
    .ok () (sealedAgain [0, 3] (lengthSealed 1 [0, 3])) := by
  have hpatch : SpillIo.patch lengthPrimitives numbered none 1 [3] (oneByte []) =
      .ok () { sealedAgain [0, 3] (lengthSealed 1 [0, 3]) with spill.len := 1 } := by rfl
  have hone : Spill.takeLen 1 ([3] : Bytes).length = ([3] : Bytes).length := by decide
  have hwrite := SpillIo.writeAt_one (Nat.le_refl 1) (cons_ne_nil 3 []) hone hpatch
  exact hwrite

theorem length_lengthSealed (k : Nat) (plaintext : Bytes) :
    (lengthSealed k plaintext).length = plaintext.length + overhead := by
  simp only [lengthSealed, length_append, Block.length, length_replicate, overhead, nonceLen,
    tagLen]
  omega

theorem lengthSealed_cut (k : Nat) {plaintext aad : Bytes} {key : Key} {n : Nat}
    (hshort : plaintext.length < tagLen) (hlong : overhead ≤ n)
    (hless : n < (lengthSealed k plaintext).length) :
    ∃ e, Aead.decrypt lengthPrimitives key ((lengthSealed k plaintext).take n) aad = .error e := by
  cases hopen : Aead.decrypt lengthPrimitives key ((lengthSealed k plaintext).take n) aad with
  | error e => exact ⟨e, rfl⟩
  | ok opened =>
    rw [length_lengthSealed] at hless
    simp only [overhead, tagLen] at hlong hshort hless
    have hbody : ((lengthSealed k plaintext).take n).drop nonceLen =
        (plaintext ++ .replicate tagLen (UInt8.ofNat plaintext.length)).take (n - 24) := by
      rw [drop_take, lengthSealed, append_assoc, drop_left' (Block.length _)]
    simp only [Aead.decrypt, lengthPrimitives, taggedPrimitives, bind_eq_ok, okOr_eq_ok,
      Option.ite_none_right_eq_some, hbody] at hopen
    obtain ⟨-, -, heq, -⟩ := hopen
    have hsize :
        ((plaintext ++ .replicate tagLen (UInt8.ofNat plaintext.length)).take (n - 24)).length =
        n - 24 := by
      simp only [length_take, length_append, length_replicate, tagLen]
      omega
    have hlast := congrArg (·[n - 25]?) heq
    simp only [hsize, take_take, tagLen] at hlast
    rw [List.getElem?_take_of_lt (by omega), List.getElem?_append_right (by omega),
      List.getElem?_append_right (by rw [length_take]; omega),
      List.getElem?_replicate_of_lt (by omega), List.getElem?_replicate_of_lt (by
        simp only [length_take, length_append, length_replicate]
        omega)] at hlast
    have hbytes := congrArg UInt8.toNat (Option.some.inj hlast)
    simp only [UInt8.toNat_ofNat', length_take, length_append, length_replicate] at hbytes
    omega

theorem authentic_lengthSealed {k : Nat} {plaintext : Bytes} (hshort : plaintext.length < tagLen)
    (hmem : ⟨0, plaintext, lengthSealed k plaintext⟩ ∈ r.frames)
    (hfile : r.spill.file = lengthSealed k plaintext) : r.Authentic lengthPrimitives := by
  refine authentic_of_slot hmem rfl hfile ?_ fun n => lengthSealed_cut k hshort
  rw [length_lengthSealed]
  simp only [tagLen] at hshort
  simp only [overhead, slotLen, frameLen]
  omega

theorem authentic_oneByte : (oneByte (lengthSealed 0 [1])).Authentic lengthPrimitives :=
  authentic_lengthSealed (by decide) mem_cons_self rfl

theorem next_oneByte :
    (Exposed.new (.replicate keyLen 0) : Exposed Unit).next lengthPrimitives numbered
    (.call (.write 0 [1])) = ⟨oneByte (lengthSealed 0 [1]), fun _ => none⟩ := by
  simp only [Exposed.next, Logged.after, Exposed.new, write_oneByte]

/-- A byte is written, and its frame is lost before it is read. -/
theorem explained_lost :
    Explained lengthPrimitives numbered [] (fun _ => []) (.new (.replicate keyLen 0))
    [.call (.write 0 [1]), .makeReader (), .alter [], .read () 1] := by
  refine explained_of_upheld lengthPrimitives_lawful _ _ _ ⟨authentic_of_nil rfl, ?_⟩
    ⟨by decide, ?_⟩ ⟨?_, ?_⟩
  · rw [next_oneByte]
    exact ⟨authentic_oneByte, authentic_oneByte, authentic_of_nil rfl, trivial⟩
  · rw [next_oneByte]
    exact ⟨by decide, by decide, by decide, trivial⟩
  · intro index hread
    exact absurd hread.2.1 (Nat.not_lt_zero _)
  · rw [next_oneByte]
    refine ⟨trivial, trivial, ?_, trivial⟩
    intro reader _ _ f hf hindex n _
    rw [← hindex, mem_singleton.mp hf]
    rfl

def replayed : List (SpillEvent Unit) :=
  [.call (.write 0 [1]), .call (.write 0 [2]), .alter (lengthSealed 0 [1]),
    .makeReader (), .read () 1]

def cutShort : List (SpillEvent Unit) :=
  [.call (.write 0 [1]), .alter [], .call (.write 1 [3]), .makeReader (), .read () 2]

theorem next_again :
    (⟨oneByte (lengthSealed 0 [1]), fun _ => none⟩ : Exposed Unit).next lengthPrimitives
    numbered (.call (.write 0 [2])) = ⟨sealedAgain [2] (lengthSealed 1 [2]), fun _ => none⟩ := by
  simp only [Exposed.next, Logged.after, write_again]

theorem next_lost :
    ((⟨oneByte (lengthSealed 0 [1]), fun _ => none⟩ : Exposed Unit).next lengthPrimitives
    numbered (.alter [])).next lengthPrimitives numbered (.call (.write 1 [3])) =
      ⟨sealedAgain [0, 3] (lengthSealed 1 [0, 3]), fun _ => none⟩ := by
  have hafter : (oneByte []).after lengthPrimitives numbered ⟨.write 1 [3], none⟩ =
      sealedAgain [0, 3] (lengthSealed 1 [0, 3]) := by
    simp only [Logged.after, write_lost]
  exact congrArg (Exposed.mk · fun _ => none) hafter

theorem not_explained_replayed : ¬Explained lengthPrimitives numbered [] (fun _ => [])
    (.new (.replicate keyLen 0)) replayed := by
  rintro ⟨c₁, s₁, ⟨-, hcall₁⟩, h⟩
  simp only [Exposed.new, write_oneByte] at hcall₁
  rw [next_oneByte] at h
  obtain ⟨c₂, s₂, ⟨-, hcall₂⟩, h⟩ := h
  simp only [write_again, hcall₁] at hcall₂
  rw [next_again] at h
  obtain ⟨_, _, ⟨rfl, rfl⟩, _, _, ⟨rfl, rfl⟩, _, _, ⟨-, -, hread⟩, -⟩ := h
  obtain ⟨c, hc, -, hbytes, -⟩ := hread _ rfl [1] _ rfl
  rw [update_self, mem_singleton] at hc
  rw [hc, hcall₂] at hbytes
  exact absurd hbytes (by decide)

theorem not_explained_cutShort : ¬Explained lengthPrimitives numbered [] (fun _ => [])
    (.new (.replicate keyLen 0)) cutShort := by
  rintro ⟨c₁, s₁, ⟨-, hcall₁⟩, h⟩
  simp only [Exposed.new, write_oneByte] at hcall₁
  rw [next_oneByte] at h
  obtain ⟨_, _, ⟨rfl, rfl⟩, c₂, s₂, ⟨-, hcall₂⟩, h⟩ := h
  have hlost : SpillIo.call lengthPrimitives numbered none (.write 1 [3])
      ((⟨oneByte (lengthSealed 0 [1]), fun _ => none⟩ : Exposed Unit).next lengthPrimitives numbered
        (.alter [])).run = _ := write_lost
  simp only [hlost, hcall₁] at hcall₂
  rw [next_lost] at h
  obtain ⟨_, _, ⟨rfl, rfl⟩, _, _, ⟨-, -, hread⟩, -⟩ := h
  obtain ⟨c, hc, -, hbytes, -⟩ := hread _ rfl [0, 3] _ rfl
  rw [update_self, mem_singleton] at hc
  rw [hc, hcall₂] at hbytes
  exact absurd hbytes (by decide)

/-- Two runs in which nothing opens that was not sealed for its slot, but what is read was not
written: an earlier frame of a slot is taken for the last one, and one that is lost for a hole. -/
theorem not_explained_altered :
    (Along lengthPrimitives numbered (fun w _ => w.run.Authentic lengthPrimitives)
        (.new (.replicate keyLen 0)) replayed ∧
      ¬Explained lengthPrimitives numbered [] (fun _ => []) (.new (.replicate keyLen 0)) replayed) ∧
    Along lengthPrimitives numbered (fun w _ => w.run.Authentic lengthPrimitives)
        (.new (.replicate keyLen 0)) cutShort ∧
      ¬Explained lengthPrimitives numbered [] (fun _ => []) (.new (.replicate keyLen 0))
        cutShort := by
  refine ⟨?_, ?_⟩
  · refine ⟨⟨authentic_of_nil rfl, ?_⟩, not_explained_replayed⟩
    rw [next_oneByte]
    refine ⟨authentic_oneByte, ?_⟩
    rw [next_again]
    have hback : (sealedAgain [2] (lengthSealed 0 [1])).Authentic lengthPrimitives :=
      authentic_lengthSealed (by decide) (mem_cons_of_mem _ mem_cons_self) rfl
    exact ⟨authentic_lengthSealed (by decide) mem_cons_self rfl, hback, hback, trivial⟩
  · refine ⟨⟨authentic_of_nil rfl, ?_⟩, not_explained_cutShort⟩
    rw [next_oneByte]
    refine ⟨authentic_oneByte, authentic_of_nil rfl, ?_⟩
    rw [next_lost]
    have hsealed : (sealedAgain [0, 3] (lengthSealed 1 [0, 3])).Authentic lengthPrimitives :=
      authentic_lengthSealed (by decide) mem_cons_self rfl
    exact ⟨hsealed, hsealed, trivial⟩

end Dctl.Mount
