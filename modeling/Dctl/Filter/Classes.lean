import Dctl.Filter.Language

/-! Character classes: what the documentation of the dialect makes of the text behind a `[`, and
where the parser of the classes reads the same.  The two differ in one place, the end of a range,
which the parser takes as a bare character whatever stands there. -/

namespace Dctl.Filter

open ProofKit List

theorem length_le_self (text : List Char) : text.length ≤ text.length := Nat.le_refl _

theorem length_le_cons (c : Char) (text : List Char) :
    text.length ≤ (c :: text).length := Nat.le_succ _

theorem From.length_le_cons_cons (c d : Char) (text : List Char) (left : From text) :
    left.1.length ≤ (c :: d :: text).length :=
  left.2.trans ((length_le_cons d text).trans (length_le_cons c (d :: text)))

@[simp] def From.all (text : List Char) : From text := ⟨text, length_le_self text⟩

def token (c : Char) (tail : List Char) : Option (Char × From tail) :=
  if (namedClassAt c tail.head?).isSome then none
  else if c = globEscape then
    match tail with
    | [] => none
    | escaped :: rest => some (escaped, ⟨rest, length_le_cons escaped rest⟩)
  else some (c, .all tail)

def bare (c : Char) (tail : List Char) : Option (Char × From tail) := some (c, .all tail)

/-- A `-` with something other than the closing bracket behind it. -/
def opensRange : List Char → Bool
  | dash :: high :: _ => dash = globClassRange && high ≠ globClassClose
  | _ => false

/-- What the text of a class reads as: its members, the texts from the end of each range on, and
what is left behind the closing bracket. -/
structure ClassText where
  items : List ClassItem
  ends : List (List Char)
  rest : List Char
  deriving DecidableEq

def ClassText.cons (item : ClassItem) (ends : List (List Char)) (text : ClassText) : ClassText where
  items := item :: text.items
  ends := ends ++ text.ends
  rest := text.rest

def readMember (endAt : Char → (tail : List Char) → Option (Char × From tail)) (low : Char)
    (rest : List Char) : Option (ClassItem × List (List Char) × From rest) :=
  match rest with
  | dash :: high :: behind =>
    if opensRange (dash :: high :: behind) then
      match endAt high behind with
      | none => none
      | some (last, left) =>
        if last < low then none
        else some (.range low last, [high :: behind],
          ⟨left.1, left.length_le_cons_cons dash high behind⟩)
    else some (.char low, [], .all (dash :: high :: behind))
  | short => some (.char low, [], .all short)

/-- Read a class up to its closing bracket, where `endAt` reads the end of a range. -/
def readClass (endAt : Char → (tail : List Char) → Option (Char × From tail)) (first : Bool)
    (text : List Char) : Option ClassText :=
  match text with
  | [] => none
  | current :: tail =>
    if current = globClassClose ∧ first = false then some ⟨[], [], tail⟩
    else (token current tail).bind fun lowRest =>
      (readMember endAt lowRest.1 lowRest.2.1).bind fun member =>
        (readClass endAt false member.2.2.1).map (.cons member.1 member.2.1)
termination_by text.length
decreasing_by
  have hrest := lowRest.2.2
  have hleft := member.2.2.2
  simp only [length_cons]
  omega

def classBody (tail : List Char) : List Char :=
  if tail.head?.any (· ∈ globClassNegate) then tail.drop 1 else tail

/-- The class that the documentation describes: the end of a range is read as its start is. -/
def documentedClass (tail : List Char) : Option (Node × List Char) :=
  (readClass token true (classBody tail)).map fun text =>
    (.charClass (tail.head?.any (· ∈ globClassNegate)) text.items, text.rest)

def rangeEnds (tail : List Char) : Option (List (List Char)) :=
  (readClass bare true (classBody tail)).map ClassText.ends

/-- The text behind an escaped backslash that ends a range means the same when the second backslash
escapes what follows it. -/
def settles : List Char → Bool
  | '\\' :: '\\' :: rest => !opensRange rest && settles rest
  | '\\' :: _ => false
  | ']' :: _ => false
  | '[' :: ':' :: _ => false
  | _ => true

/-- The end of a range means itself: it is neither an escape nor opens a named class, or it is the
first of an even run of backslashes in front of a character that means the same with and without an
escape. -/
def meansItself : List Char → Bool
  | '\\' :: '\\' :: rest => settles rest
  | '\\' :: _ => false
  | '[' :: ':' :: _ => false
  | _ => true

section

variable {pattern : String} {c low : Char} {tail rest : List Char}

theorem memberLow_iff (hnamed : namedClassAt c tail.head? = none) {r : Char × From tail} :
    memberLow pattern c tail = .ok r ↔ token c tail = some r := by
  unfold token memberLow
  simp only [hnamed, Option.isSome_none, Bool.false_eq_true, if_false]
  split
  · cases tail with
    | nil => simp [fail]
    | cons escaped behind => simp
  · simp

theorem classMember_iff {item : ClassItem} {left : From rest} :
    classMember pattern low rest = .ok (item, left) ↔
      ∃ ends, readMember bare low rest = some (item, ends, left) := by
  rcases rest with _ | ⟨dash, _ | ⟨high, behind⟩⟩
  · simp [classMember, readMember]
  · simp [classMember, readMember]
  · rw [classMember, readMember]
    simp only [opensRange, bare, Bool.and_eq_true, decide_eq_true_eq]
    split
    · split
      · simp [fail]
      · simp
    · simp

theorem readClass_shorter {endAt : Char → (tail : List Char) → Option (Char × From tail)} (n : Nat)
    {first : Bool} {text : List Char} {t : ClassText} (hn : text.length < n)
    (h : readClass endAt first text = some t) : t.rest.length < text.length := by
  induction n generalizing first text t with
  | zero => omega
  | succ n ih =>
    cases text with
    | nil =>
      rw [readClass] at h
      cases h
    | cons current tail =>
      rw [length_cons] at hn ⊢
      rw [readClass] at h
      split at h
      · cases h
        exact Nat.lt_succ_self _
      obtain ⟨lowRest, -, h⟩ := Option.bind_eq_some_iff.mp h
      obtain ⟨member, -, h⟩ := Option.bind_eq_some_iff.mp h
      obtain ⟨t', hclass, rfl⟩ := Option.map_eq_some_iff.mp h
      have hrest := lowRest.2.2
      have hleft := member.2.2.2
      have hlt := ih (by omega) hclass
      simp only [ClassText.cons]
      omega

theorem classItems_eq_ok (openAt : List Char) (n : Nat) {first : Bool} {text : List Char}
    {r : List ClassItem × Behind text} (hn : text.length < n) :
    classItems pattern openAt first text = .ok r ↔
      ∃ ends, readClass bare first text = some ⟨r.1, ends, r.2.1⟩ := by
  induction n generalizing first text with
  | zero => omega
  | succ n ih =>
    cases text with
    | nil =>
      rw [classItems, readClass]
      simp [fail]
    | cons current tail =>
      rw [classItems, readClass]
      obtain ⟨items, left⟩ := r
      split
      · simp [Subtype.ext_iff, eq_comm]
      cases hnamed : namedClassAt current tail.head? with
      | some name => simp [token, hnamed, fail]
      | none =>
        simp only
        constructor
        · intro h
          obtain ⟨lowRest, hlow, h⟩ := bind_eq_ok.mp h
          obtain ⟨itemRest, hitem, h⟩ := bind_eq_ok.mp h
          obtain ⟨itemsRest, hitems, h⟩ := bind_eq_ok.mp h
          obtain ⟨ends, hmember⟩ := classMember_iff.mp hitem
          have hlow' := lowRest.2.2
          have hitem' := itemRest.2.2
          obtain ⟨behind, hclass⟩ := (ih (by rw [length_cons] at hn; omega)).mp hitems
          cases h
          rw [(memberLow_iff hnamed).mp hlow, Option.bind_some, hmember, Option.bind_some, hclass]
          exact ⟨_, rfl⟩
        · intro h
          obtain ⟨ends, h⟩ := h
          obtain ⟨lowRest, hlow, h⟩ := Option.bind_eq_some_iff.mp h
          obtain ⟨⟨item, ends', behind⟩, hmember, h⟩ := Option.bind_eq_some_iff.mp h
          obtain ⟨text, hclass, h⟩ := Option.map_eq_some_iff.mp h
          rw [(memberLow_iff hnamed).mpr hlow, ok_bind, classMember_iff.mpr ⟨_, hmember⟩, ok_bind]
          have hrest := lowRest.2.2
          have hbehind : behind.1.length ≤ lowRest.2.1.length := behind.2
          have hlt : text.rest.length < behind.1.length :=
            readClass_shorter _ (Nat.lt_succ_self _) hclass
          have hitems := (ih (r := (text.items, ⟨text.rest, hlt⟩))
            (by rw [length_cons] at hn; omega)).mpr ⟨_, hclass⟩
          simp only [ClassText.cons, ClassText.mk.injEq] at h
          obtain ⟨rfl, -, h⟩ := h
          simp only [hitems, ok_bind, h]

end

/-- The documentation reads the members of `t`, and leaves the same behind. -/
def Confirms (doc : Option ClassText) (t : ClassText) : Prop :=
  ∃ ends, doc = some ⟨t.items, ends, t.rest⟩

def readFrom (endAt : Char → (tail : List Char) → Option (Char × From tail)) (low : Char)
    (rest : List Char) : Option ClassText :=
  (readMember endAt low rest).bind fun member =>
    (readClass endAt false member.2.2.1).map (.cons member.1 member.2.1)

/-- The character a member starts with. -/
def ClassItem.low : ClassItem → Char
  | char c => c
  | range low _ => low

section

variable {endAt : Char → (tail : List Char) → Option (Char × From tail)} {doc : Option ClassText}
  {t : ClassText} {item item' : ClassItem} {ends ends' : List (List Char)} {low c : Char}
  {rest tail : List Char} {first : Bool}

theorem not_confirms_none : ¬Confirms none t := by
  intro h
  obtain ⟨ends, h⟩ := h
  cases h

theorem confirms_cons : Confirms (doc.map (.cons item' ends')) (t.cons item ends) ↔
    item' = item ∧ Confirms doc t := by
  constructor
  · intro h
    obtain ⟨all, h⟩ := h
    obtain ⟨doc, hdoc, h⟩ := Option.map_eq_some_iff.mp h
    simp only [ClassText.cons, ClassText.mk.injEq, List.cons.injEq] at h
    obtain ⟨⟨hitem, hitems⟩, -, hrest⟩ := h
    exact ⟨hitem, doc.ends, by rw [hdoc, ← hitems, ← hrest]⟩
  · intro h
    obtain ⟨rfl, all, rfl⟩ := h
    exact ⟨_, rfl⟩

theorem readClass_of_token (hopen : ¬(c = globClassClose ∧ first = false)) {r : Char × From tail}
    (h : token c tail = some r) :
    readClass endAt first (c :: tail) = readFrom endAt r.1 r.2.1 := by
  rw [readClass, if_neg hopen, h]
  rfl

theorem readMember_char (h : opensRange rest = false) :
    readMember endAt low rest = some (.char low, [], .all rest) := by
  rcases rest with _ | ⟨dash, _ | ⟨high, behind⟩⟩
  · rfl
  · rfl
  · rw [readMember]
    simp only [h, Bool.false_eq_true, if_false]

theorem readFrom_char (h : opensRange rest = false) :
    readFrom endAt low rest = (readClass endAt false rest).map (.cons (.char low) []) := by
  rw [readFrom, readMember_char h]
  rfl

theorem readFrom_range {dash high : Char} (h : opensRange (dash :: high :: tail) = true) :
    readFrom endAt low (dash :: high :: tail) = (endAt high tail).bind fun r =>
      if r.1 < low then none
      else (readClass endAt false r.2.1).map (.cons (.range low r.1) [high :: tail]) := by
  rw [readFrom, readMember]
  simp only [h, if_true]
  cases endAt high tail with
  | none => rfl
  | some r =>
    simp only [Option.bind_some]
    by_cases hlow : r.1 < low
    · rw [if_pos hlow, if_pos hlow]
      rfl
    · rw [if_neg hlow, if_neg hlow]
      rfl

theorem low_of_readFrom (h : readFrom endAt low rest = some t) :
    ∃ item items, t.items = item :: items ∧ item.low = low := by
  cases hopens : opensRange rest with
  | false =>
    rw [readFrom_char hopens] at h
    obtain ⟨t', -, rfl⟩ := Option.map_eq_some_iff.mp h
    exact ⟨_, _, rfl, rfl⟩
  | true =>
    obtain ⟨dash, high, tail, rfl⟩ : ∃ dash high tail, rest = dash :: high :: tail := by
      rcases rest with _ | ⟨dash, _ | ⟨high, tail⟩⟩
      · cases hopens
      · cases hopens
      · exact ⟨_, _, _, rfl⟩
    rw [readFrom_range hopens] at h
    obtain ⟨r, -, h⟩ := Option.bind_eq_some_iff.mp h
    split at h
    · cases h
    · obtain ⟨t', -, rfl⟩ := Option.map_eq_some_iff.mp h
      exact ⟨_, _, rfl, rfl⟩

theorem not_confirms_low {low' : Char} {rest' : List Char} (hne : low' ≠ low)
    (h : readFrom bare low rest = some t) : ¬Confirms (readFrom token low' rest') t := by
  intro hconfirms
  obtain ⟨ends, hdoc⟩ := hconfirms
  obtain ⟨item, items, hitems, hlow⟩ := low_of_readFrom h
  obtain ⟨item', items', hitems', hlow'⟩ := low_of_readFrom hdoc
  rw [hitems] at hitems'
  cases hitems'
  exact hne (hlow'.symm.trans hlow)

theorem token_of_plain (hescape : c ≠ globEscape)
    (hnamed : ¬(c = globClassOpen ∧ tail.head? = some ':')) :
    token c tail = some (c, ⟨tail, Nat.le_refl _⟩) := by
  have hnone : namedClassAt c tail.head? = none := by
    unfold namedClassAt
    rw [if_neg hescape]
    split
    · rw [if_neg]
      intro hcolon
      exact hnamed ⟨by assumption, hcolon⟩
    · rfl
  unfold token
  rw [hnone, if_neg hescape]
  rfl

theorem token_of_named (h : c = globClassOpen ∧ tail.head? = some ':') : token c tail = none := by
  obtain ⟨rfl, hcolon⟩ := h
  unfold token namedClassAt
  rw [hcolon]
  rfl

theorem token_backslash :
    token globEscape (globEscape :: tail) = some (globEscape, ⟨tail, Nat.le_succ _⟩) := rfl

theorem token_escape (c : Char) (tail : List Char) : token globEscape (c :: tail) = none ∨
    token globEscape (c :: tail) = some (c, ⟨tail, Nat.le_succ _⟩) := by
  unfold token
  split
  · exact .inl rfl
  · exact .inr rfl

theorem opensRange_backslash : opensRange (globEscape :: tail) = false := by
  cases tail with
  | nil => rfl
  | cons high behind => rfl

theorem meansItself_backslash : meansItself (globEscape :: globEscape :: tail) = settles tail := rfl

theorem meansItself_escape (hc : c ≠ globEscape) :
    meansItself (globEscape :: c :: tail) = false := by
  unfold meansItself
  split
  · rename_i heq
    cases heq
    exact absurd rfl hc
  · rfl
  · rfl
  · rename_i h _
    exact absurd rfl (h _)

theorem meansItself_plain (hescape : c ≠ globEscape)
    (hnamed : ¬(c = globClassOpen ∧ tail.head? = some ':')) : meansItself (c :: tail) = true := by
  unfold meansItself
  split
  · rename_i heq
    cases heq
    exact absurd rfl hescape
  · rename_i heq
    cases heq
    exact absurd rfl hescape
  · rename_i heq
    cases heq
    exact absurd ⟨rfl, rfl⟩ hnamed
  · rfl

theorem settles_plain (hescape : c ≠ globEscape) (hclose : c ≠ globClassClose)
    (hnamed : ¬(c = globClassOpen ∧ tail.head? = some ':')) : settles (c :: tail) = true := by
  unfold settles
  split
  · rename_i heq
    cases heq
    exact absurd rfl hescape
  · rename_i heq
    cases heq
    exact absurd rfl hescape
  · rename_i heq
    cases heq
    exact absurd rfl hclose
  · rename_i heq
    cases heq
    exact absurd ⟨rfl, rfl⟩ hnamed
  · rfl

theorem settles_backslashes : settles (globEscape :: globEscape :: tail) =
    (!opensRange tail && settles tail) := by
  rw [globEscape, settles]

theorem settles_escape (hc : c ≠ globEscape) : settles (globEscape :: c :: tail) = false := by
  unfold settles
  split
  · rename_i heq
    cases heq
    exact absurd rfl hc
  · rfl
  · rfl
  · rfl
  · rename_i h _ _
    exact absurd rfl (h _)

end

structure Compared (n : Nat) : Prop where
  inStep : ∀ first text t, text.length < n → readClass bare first text = some t →
    (Confirms (readClass token first text) t ↔ ∀ e ∈ t.ends, meansItself e = true)
  behind : ∀ text t, text.length + 1 < n → readClass bare false (globEscape :: text) = some t →
    (Confirms (readClass token false text) t ↔
      settles text = true ∧ ∀ e ∈ t.ends, meansItself e = true)

section

variable {n : Nat} {t : ClassText} {low : Char} {text rest : List Char}

section

variable (h : Compared n)
include h

theorem Compared.char (hn : rest.length < n) (hopens : opensRange rest = false)
    (ht : readFrom bare low rest = some t) :
    Confirms (readFrom token low rest) t ↔ ∀ e ∈ t.ends, meansItself e = true := by
  rw [readFrom_char hopens] at ht ⊢
  obtain ⟨t', ht', rfl⟩ := Option.map_eq_some_iff.mp ht
  rw [confirms_cons, h.inStep false rest t' hn ht']
  simp [ClassText.cons]

theorem Compared.range {dash high : Char} (hn : rest.length + 2 < n)
    (hopens : opensRange (dash :: high :: rest) = true)
    (ht : readFrom bare low (dash :: high :: rest) = some t) :
    Confirms (readFrom token low (dash :: high :: rest)) t ↔
      ∀ e ∈ t.ends, meansItself e = true := by
  rw [readFrom_range hopens] at ht ⊢
  simp only [bare, From.all, Option.bind_some] at ht
  split at ht
  · cases ht
  rename_i hlow
  obtain ⟨t', ht', rfl⟩ := Option.map_eq_some_iff.mp ht
  have hends : (∀ e ∈ (t'.cons (.range low high) [high :: rest]).ends, meansItself e = true) ↔
      meansItself (high :: rest) = true ∧ ∀ e ∈ t'.ends, meansItself e = true :=
    forall_mem_cons
  rw [hends]
  by_cases hnamed : high = globClassOpen ∧ rest.head? = some ':'
  · rw [token_of_named hnamed]
    obtain ⟨rfl, hcolon⟩ := hnamed
    obtain ⟨tail, rfl⟩ := List.head?_eq_some_iff.mp hcolon
    exact iff_of_false not_confirms_none (by simp [meansItself, globClassOpen])
  by_cases hescape : high = globEscape
  · subst hescape
    cases rest with
    | nil =>
      rw [readClass] at ht'
      cases ht'
    | cons c tail =>
      -- The bare end is the backslash, whatever it escapes.
      by_cases hc : c = globEscape
      · subst hc
        rw [token_backslash, Option.bind_some, if_neg hlow, confirms_cons]
        rw [length_cons] at hn
        have hbehind := h.behind tail t' (by omega) ht'
        rw [hbehind, meansItself_backslash]
        exact ⟨fun h => h.2, fun h => ⟨rfl, h⟩⟩
      · rw [meansItself_escape hc]
        refine iff_of_false ?_ (by simp)
        rcases token_escape c tail with hnone | hsome
        · rw [hnone]
          exact not_confirms_none
        · rw [hsome, Option.bind_some]
          split
          · exact not_confirms_none
          · rw [confirms_cons]
            intro h
            injection h.1 with _ hlast
            exact hc hlast
  · rw [token_of_plain hescape hnamed, Option.bind_some, if_neg hlow, confirms_cons,
      h.inStep false rest t' (by omega) ht', meansItself_plain hescape hnamed]
    exact ⟨fun h => ⟨rfl, h.2⟩, fun h => ⟨rfl, h.2⟩⟩

theorem Compared.from (hn : rest.length < n) (ht : readFrom bare low rest = some t) :
    Confirms (readFrom token low rest) t ↔ ∀ e ∈ t.ends, meansItself e = true := by
  cases hopens : opensRange rest with
  | false => exact h.char hn hopens ht
  | true =>
    rcases rest with _ | ⟨dash, _ | ⟨high, tail⟩⟩
    · cases hopens
    · cases hopens
    · exact h.range (by simpa using hn) hopens ht

theorem Compared.backslashes (hn : rest.length + 1 < n)
    (ht : readFrom bare globEscape rest = some t) :
    Confirms (readClass token false (globEscape :: rest)) t ↔
      settles (globEscape :: rest) = true ∧ ∀ e ∈ t.ends, meansItself e = true := by
  cases rest with
  | nil =>
    rw [readFrom_char rfl, readClass] at ht
    cases ht
  | cons c tail =>
    by_cases hc : c = globEscape
    · subst hc
      rw [readFrom_char opensRange_backslash] at ht
      obtain ⟨t', ht', rfl⟩ := Option.map_eq_some_iff.mp ht
      rw [readClass_of_token (by decide) token_backslash, settles_backslashes]
      rw [length_cons] at hn
      cases hopens : opensRange tail with
      | false =>
        rw [readFrom_char hopens, confirms_cons, h.behind tail t' (by omega) ht']
        simp [ClassText.cons]
      | true =>
        -- The documentation opens a range at the backslash, and the parser has it alone.
        refine iff_of_false ?_ (by simp)
        rcases tail with _ | ⟨dash, _ | ⟨high, behind⟩⟩
        · cases hopens
        · cases hopens
        rw [readFrom_range hopens]
        cases token high behind with
        | none => exact not_confirms_none
        | some r =>
          rw [Option.bind_some]
          split
          · exact not_confirms_none
          · rw [confirms_cons]
            intro h
            cases h.1
    · rw [settles_escape hc]
      refine iff_of_false ?_ (by simp)
      rcases token_escape c tail with hnone | hsome
      · rw [readClass, if_neg (by decide), hnone]
        exact not_confirms_none
      · rw [readClass_of_token (by decide) hsome]
        exact not_confirms_low hc ht

/-- The parser is one escape behind: it takes the backslash that the documentation has read as the
escape of what follows. -/
theorem Compared.lagging (hn : text.length < n)
    (ht : readClass bare false (globEscape :: text) = some t) :
    Confirms (readClass token false text) t ↔
      settles text = true ∧ ∀ e ∈ t.ends, meansItself e = true := by
  cases text with
  | nil =>
    rw [readClass] at ht
    cases ht
  | cons c tail =>
    rw [length_cons] at hn
    have hfrom : readFrom bare c tail = some t := by
      rcases token_escape c tail with hnone | hsome
      · rw [readClass, if_neg (by decide), hnone] at ht
        cases ht
      · rwa [readClass_of_token (by decide) hsome] at ht
    by_cases hclose : c = globClassClose
    · subst hclose
      obtain ⟨item, items, hitems, -⟩ := low_of_readFrom hfrom
      refine iff_of_false ?_ (by simp [settles, globClassClose])
      rw [readClass, if_pos ⟨rfl, rfl⟩]
      rintro ⟨ends, hdoc⟩
      rw [hitems] at hdoc
      cases hdoc
    by_cases hnamed : c = globClassOpen ∧ tail.head? = some ':'
    · refine iff_of_false ?_ ?_
      · rw [readClass, if_neg (by simp [hclose]), token_of_named hnamed]
        exact not_confirms_none
      · obtain ⟨rfl, hcolon⟩ := hnamed
        obtain ⟨behind, rfl⟩ := List.head?_eq_some_iff.mp hcolon
        simp [settles, globClassOpen]
    by_cases hescape : c = globEscape
    · subst hescape
      exact h.backslashes hn hfrom
    · rw [settles_plain hescape hclose hnamed, readClass_of_token (by simp [hclose])
        (token_of_plain hescape hnamed), h.from (by omega) hfrom]
      exact ⟨fun h => ⟨rfl, h⟩, fun h => h.2⟩

end

theorem compared (n : Nat) : Compared n := by
  induction n with
  | zero => exact ⟨by omega, by omega⟩
  | succ n ih =>
    refine ⟨?_, ?_⟩
    · intro first text t hn ht
      cases text with
      | nil =>
        rw [readClass] at ht
        cases ht
      | cons current tail =>
        rw [length_cons] at hn
        by_cases hclose : current = globClassClose ∧ first = false
        · rw [readClass, if_pos hclose] at ht ⊢
          cases ht
          exact iff_of_true ⟨[], rfl⟩ (by simp)
        cases htoken : token current tail with
        | none =>
          rw [readClass, if_neg hclose, htoken] at ht
          cases ht
        | some lowRest =>
          have hle := lowRest.2.2
          rw [readClass_of_token hclose htoken] at ht ⊢
          exact ih.from (by omega) ht
    · intro text t hn ht
      exact ih.lagging (by omega) ht

end

variable {pattern : String} {tail : List Char}

theorem classNode_eq_ok {node : Node} {left : From tail} :
    classNode pattern tail = .ok (node, left) ↔ ∃ t, readClass bare true (classBody tail) = some t ∧
      node = .charClass (tail.head?.any (· ∈ globClassNegate)) t.items ∧ left.1 = t.rest := by
  have hbody : ∀ h h', (if tail.head?.any (· ∈ globClassNegate) then ⟨tail.drop 1, h⟩
      else ⟨tail, h'⟩ : From tail).1 = classBody tail := by
    intro h h'
    unfold classBody
    split
    · rfl
    · rfl
  unfold classNode
  simp only
  rw [← hbody (by simp) (Nat.le_refl _)]
  constructor
  · intro h
    obtain ⟨r, hitems, h⟩ := bind_eq_ok.mp h
    obtain ⟨ends, hread⟩ := (classItems_eq_ok _ _ (Nat.lt_succ_self _)).mp hitems
    cases h
    exact ⟨_, hread, rfl, rfl⟩
  · intro h
    obtain ⟨t, hread, rfl, hleft⟩ := h
    have hlt := readClass_shorter _ (Nat.lt_succ_self _) hread
    rw [(classItems_eq_ok (r := (t.items, ⟨t.rest, hlt⟩)) _ _ (Nat.lt_succ_self _)).mpr ⟨_, hread⟩,
      ok_bind]
    congr 2
    exact Subtype.ext hleft.symm

/-- The parser refuses a class or reads the class that the documentation describes, if and only if
the end of each range means itself. -/
theorem classNode_documented_iff (pattern : String) (tail : List Char) :
    (∀ node rest, classNode pattern tail = .ok (node, rest) →
        documentedClass tail = some (node, rest.1)) ↔
      ∀ ends, rangeEnds tail = some ends → ∀ e ∈ ends, meansItself e = true := by
  unfold rangeEnds documentedClass
  cases hread : readClass bare true (classBody tail) with
  | none =>
    refine iff_of_true ?_ (by simp)
    intro node rest h
    obtain ⟨t, ht, -⟩ := classNode_eq_ok.mp h
    rw [hread] at ht
    cases ht
  | some t =>
    have hcompared := (compared _).inStep true _ t (Nat.lt_succ_self _) hread
    have hlt := readClass_shorter _ (Nat.lt_succ_self _) hread
    have hle : (classBody tail).length ≤ tail.length := by
      unfold classBody
      split
      · simp
      · exact Nat.le_refl _
    constructor
    · intro h ends hends
      cases hends
      rw [← hcompared]
      have hdoc := h _ ⟨t.rest, by omega⟩ (classNode_eq_ok.mpr ⟨t, hread, rfl, rfl⟩)
      obtain ⟨doc, hdoc, heq⟩ := Option.map_eq_some_iff.mp hdoc
      simp only [Prod.mk.injEq, Node.charClass.injEq, true_and] at heq
      exact ⟨doc.ends, by rw [hdoc, ← heq.1, ← heq.2]⟩
    · intro h node rest hnode
      obtain ⟨t', ht', rfl, hrest⟩ := classNode_eq_ok.mp hnode
      rw [hread] at ht'
      cases ht'
      obtain ⟨ends, hdoc⟩ := hcompared.mpr (h _ rfl)
      rw [hdoc, hrest]
      rfl

/-- `[A-[:digit:]]` is accepted, as a class of a range up to `[` and letters. -/
theorem classNode_undocumented : ¬∀ node rest,
    classNode "[A-[:digit:]]" "A-[:digit:]]".toList = .ok (node, rest) →
      documentedClass "A-[:digit:]]".toList = some (node, rest.1) := by
  intro h
  have hok : classNode "[A-[:digit:]]" "A-[:digit:]]".toList = .ok (.charClass false
      [.range 'A' '[', .char ':', .char 'd', .char 'i', .char 'g', .char 'i', .char 't', .char ':'],
      ⟨[']'], by decide⟩) := by with_unfolding_all rfl
  have hnone : documentedClass "A-[:digit:]]".toList = none := by with_unfolding_all rfl
  rw [h _ _ hok] at hnone
  cases hnone

end Dctl.Filter
