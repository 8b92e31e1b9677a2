import Mathlib.Data.List.Induction
import Dctl.ProofKit.Lines
import Dctl.Audit.Record

/-! The framing of the log (`audit/serialize.rs`): one JSON object per line, a record counts if its
terminator is there, and the end of the log is read from a window onto its last bytes. -/

namespace Dctl.Audit

open ProofKit List

@[simp, reducible] def auditLogLineTerminator : UInt8 := 0x0a

def isAsciiWhitespace (b : UInt8) : Bool :=
  b = 0x20 ∨ b = 0x09 ∨ b = 0x0a ∨ b = 0x0c ∨ b = 0x0d

def isBlank (line : Bytes) : Bool := line.all isAsciiWhitespace

/-- The JSON library: how a record is written as one object, and what it reads from a line, or the
text of its error. -/
structure Serde where
  toVec : AuditRecord → Bytes
  fromSlice : Bytes → Except String AuditRecord

/-- What the log relies on: an object is one line of text, and is read back as it was written. -/
structure Serde.Lawful (serde : Serde) : Prop where
  fromSlice_toVec : ∀ record, serde.fromSlice (serde.toVec record) = .ok record
  terminator_notMem : ∀ record, auditLogLineTerminator ∉ serde.toVec record
  not_blank : ∀ record, isBlank (serde.toVec record) = false

def encodeLine (serde : Serde) (record : AuditRecord) : Bytes :=
  serde.toVec record ++ [auditLogLineTerminator]

structure Tail where
  last : Option Bytes
  fragment : Bytes
  deriving DecidableEq

inductive Framing where
  | resolved (tail : Tail)
  | needMore
  deriving DecidableEq

def lineStart (bytes : Bytes) : Nat :=
  match rposition auditLogLineTerminator bytes with
  | some position => position + 1
  | none => 0

theorem lineStart_eq (bytes : Bytes) :
    lineStart bytes =
      (unlines auditLogLineTerminator (linesOf auditLogLineTerminator bytes)).length :=
  after_rposition auditLogLineTerminator bytes

theorem lineStart_le (bytes : Bytes) : lineStart bytes ≤ bytes.length := by
  rw [lineStart_eq, length_unlines_linesOf]
  omega

/-- The loop of `frame`: backwards over the terminated lines, until one has content. -/
def frameFrom (body fragment : Bytes) (anchored : Bool) («end» : Nat) : Framing :=
  let start := lineStart (body.take «end»)
  let line := (body.take «end»).drop start
  if isBlank line = false then
    if start = 0 ∧ anchored = false then .needMore
    else .resolved { last := some line, fragment }
  else if hstart : start = 0 then
    if anchored then .resolved { last := none, fragment } else .needMore
  else
    have : start - 1 < «end» := by
      have hle := lineStart_le (body.take «end»)
      rw [length_take] at hle
      omega
    frameFrom body fragment anchored (start - 1)

def frame (window : Bytes) (anchored : Bool) : Framing :=
  let body := window.take (lineStart window)
  let fragment := window.drop (lineStart window)
  if body = [] then
    if anchored then .resolved { last := none, fragment } else .needMore
  else frameFrom body fragment anchored (body.length - 1)

def lastRecord (lines : List Bytes) : Option Bytes := lines.reverse.find? fun line => !isBlank line

/-- The end of a whole log. -/
def tailOf (log : Bytes) : Tail :=
  { last := lastRecord (linesOf auditLogLineTerminator log),
    fragment := fragmentOf auditLogLineTerminator log }

variable {fragment line window log : Bytes} {ls ms : List Bytes} {anchored : Bool}

theorem lastRecord_concat :
    lastRecord (ls ++ [line]) = if isBlank line then lastRecord ls else some line := by
  rw [lastRecord, reverse_append, reverse_singleton, singleton_append,
    List.find?_cons]
  cases isBlank line <;> rfl

theorem lastRecord_append :
    lastRecord (ls ++ ms) = (lastRecord ms).or (lastRecord ls) := by
  rw [lastRecord, reverse_append, List.find?_append]
  rfl

theorem lastRecord_eq_some (h : lastRecord ls = some line) :
    ∃ before after, ls = before ++ line :: after ∧ isBlank line = false ∧
      ∀ l ∈ after, isBlank l = true := by
  obtain ⟨hline, later, earlier, hsplit, hblank⟩ := List.find?_eq_some_iff_append.mp h
  refine ⟨earlier.reverse, later.reverse, ?_, by simpa using hline, ?_⟩
  · have := congrArg List.reverse hsplit
    simpa using this
  · intro l hl
    simpa using hblank l (mem_reverse.mp hl)

theorem lastRecord_eq_none : lastRecord ls = none ↔ ∀ l ∈ ls, isBlank l = true := by
  simp [lastRecord]

/-- The loop finds the last line with content, as long as it does not take the first line of a
window that may begin inside a line. -/
theorem frameFrom_eq (hls : ∀ l ∈ ls, auditLogLineTerminator ∉ l)
    (hline : auditLogLineTerminator ∉ line) (more fragment : Bytes) :
    frameFrom (unlines auditLogLineTerminator ls ++ line ++ more) fragment anchored
        (unlines auditLogLineTerminator ls ++ line).length =
      if anchored then .resolved { last := lastRecord (ls ++ [line]), fragment }
      else match lastRecord (ls ++ [line]).tail with
        | some last => .resolved { last := some last, fragment }
        | none => .needMore := by
  induction ls using List.reverseRecOn generalizing line more with
  | nil =>
    have hstart : lineStart line = 0 := by
      rw [lineStart_eq, linesOf_of_not_mem hline]
      rfl
    rw [frameFrom]
    simp only [unlines_nil, nil_append, take_left', hstart, drop_zero]
    cases hblank : isBlank line <;> cases anchored <;> simp [lastRecord, hblank]
  | append_singleton ls previous ih =>
    have hprevious := hls previous (by simp)
    have hbefore : ∀ l ∈ ls, auditLogLineTerminator ∉ l := fun l hl => hls l (by simp [hl])
    have hstart : lineStart (unlines auditLogLineTerminator (ls ++ [previous]) ++ line) =
        (unlines auditLogLineTerminator (ls ++ [previous])).length := by
      rw [lineStart_eq, (linesOf_unlines_append hls line).1, linesOf_of_not_mem hline,
        append_nil]
    have hlength : (unlines auditLogLineTerminator (ls ++ [previous])).length =
        (unlines auditLogLineTerminator ls ++ previous).length + 1 := by
      simp
      omega
    have htail : (ls ++ [previous] ++ [line]).tail = (ls ++ [previous]).tail ++ [line] :=
      tail_append_of_ne_nil (by simp)
    rw [frameFrom]
    simp only [take_left', hstart, drop_left']
    rw [htail, @lastRecord_concat line (ls ++ [previous]),
      @lastRecord_concat line (ls ++ [previous]).tail]
    cases hblank : isBlank line with
    | false =>
      cases anchored <;> simp
    | true =>
      have hbody : unlines auditLogLineTerminator (ls ++ [previous]) ++ line ++ more =
          unlines auditLogLineTerminator ls ++ previous ++
            (auditLogLineTerminator :: line ++ more) := by
        simp
      have hstep := ih hbefore hprevious (auditLogLineTerminator :: line ++ more)
      rw [dif_neg (by omega), hlength, Nat.add_sub_cancel, hbody, hstep]
      simp

theorem frame_eq (window : Bytes) (anchored : Bool) :
    frame window anchored =
      if anchored then .resolved (tailOf window)
      else match lastRecord (linesOf auditLogLineTerminator window).tail with
        | some last => .resolved { last := some last, fragment := (tailOf window).fragment }
        | none => .needMore := by
  have hparts := unlines_linesOf auditLogLineTerminator window
  have hbody : window.take (lineStart window) =
      unlines auditLogLineTerminator (linesOf auditLogLineTerminator window) := by
    rw [lineStart_eq, length_unlines_linesOf, take_complete]
  have hfragment : window.drop (lineStart window) = (tailOf window).fragment := by
    rw [lineStart_eq]
    conv_lhs => rw [← hparts]
    exact drop_left' (by rw [hparts])
  have hclean : ∀ l ∈ linesOf auditLogLineTerminator window, auditLogLineTerminator ∉ l :=
    fun _ hl => not_mem_of_mem_linesOf hl
  rw [frame, hbody, hfragment]
  rcases eq_nil_or_concat (linesOf auditLogLineTerminator window) with hnil | ⟨ls, line, hls⟩
  · simp [hnil, tailOf, lastRecord]
  · rw [concat_eq_append] at hls
    rw [hls] at hclean
    have hbefore : ∀ l ∈ ls, auditLogLineTerminator ∉ l := fun l hl => hclean l (by simp [hl])
    have hloop := @frameFrom_eq line ls anchored hbefore (hclean line (by simp))
      [auditLogLineTerminator] (tailOf window).fragment
    have hunlines : unlines auditLogLineTerminator (ls ++ [line]) =
        unlines auditLogLineTerminator ls ++ line ++ [auditLogLineTerminator] := by simp
    have hlength : (unlines auditLogLineTerminator (ls ++ [line])).length - 1 =
        (unlines auditLogLineTerminator ls ++ line).length := by
      rw [hunlines]
      simp
    rw [hls, if_neg (by simp [hunlines]), hlength, hunlines, hloop]
    simp [tailOf, hls]

/-- A whole record, with the terminator before it, is among the last bytes of the log. -/
def Within (log : Bytes) (span : Nat) : Prop :=
  ∃ before line after, linesOf auditLogLineTerminator log = before ++ line :: after ∧ before ≠ [] ∧
    isBlank line = false ∧
    (unlines auditLogLineTerminator (line :: after) ++
      fragmentOf auditLogLineTerminator log).length < span

theorem Within.mono {span span' : Nat} (h : Within log span) (hle : span ≤ span') :
    Within log span' := by
  obtain ⟨before, line, after, hsplit, hbefore, hline, hlt⟩ := h
  exact ⟨before, line, after, hsplit, hbefore, hline, by omega⟩

theorem tailOf_append {front : Bytes} {last : Bytes}
    (h : lastRecord (linesOf auditLogLineTerminator window).tail = some last) :
    tailOf (front ++ window) = { last := some last, fragment := (tailOf window).fragment } := by
  cases hlines : linesOf auditLogLineTerminator window with
  | nil =>
    rw [hlines] at h
    cases h
  | cons first rest =>
    rw [hlines, tail_cons] at h
    have hcons : linesOf auditLogLineTerminator front ++
        continued (fragmentOf auditLogLineTerminator front) (first :: rest) =
          (linesOf auditLogLineTerminator front ++
            [fragmentOf auditLogLineTerminator front ++ first]) ++ rest := by
      simp [continued]
    rw [tailOf, linesOf_append, fragmentOf_append, hlines, hcons, lastRecord_append, h,
      if_neg (by simp)]
    rfl

theorem lastRecord_tail_isSome {front : Bytes} :
    (lastRecord (linesOf auditLogLineTerminator window).tail).isSome ↔
      Within (front ++ window) window.length := by
  constructor
  · intro h
    obtain ⟨last, hlast⟩ := Option.isSome_iff_exists.mp h
    obtain ⟨before, after, hsplit, hblank, -⟩ := lastRecord_eq_some hlast
    cases hlines : linesOf auditLogLineTerminator window with
    | nil =>
      rw [hlines] at hsplit
      simp at hsplit
    | cons first rest =>
      rw [hlines, tail_cons] at hsplit
      refine ⟨linesOf auditLogLineTerminator front ++
        (fragmentOf auditLogLineTerminator front ++ first) :: before, last, after, ?_, by simp,
        hblank, ?_⟩
      · rw [linesOf_append, hlines, hsplit]
        simp [continued]
      · have hparts := congrArg List.length (unlines_linesOf auditLogLineTerminator window)
        rw [fragmentOf_append, hlines, if_neg (by simp)]
        rw [hlines, hsplit] at hparts
        simp only [unlines_cons, unlines_append, length_append, length_cons] at hparts ⊢
        omega
  · intro h
    obtain ⟨before, line, after, hsplit, hbefore, hline, hlt⟩ := h
    have hclean : ∀ l ∈ line :: after, auditLogLineTerminator ∉ l := by
      intro l hl
      refine @not_mem_of_mem_linesOf _ _ _ (front ++ window) _ ?_
      rw [hsplit]
      exact mem_append_right _ hl
    have hparts := unlines_linesOf auditLogLineTerminator (front ++ window)
    rw [hsplit, unlines_append, append_assoc] at hparts
    -- The window reaches back into the terminator before the record.
    rcases append_eq_append_iff.mp hparts with ⟨cut, hfront, hrest⟩ | ⟨cut, hfront, hwindow⟩
    · rw [hrest, length_append] at hlt
      omega
    rcases eq_nil_or_concat cut with rfl | ⟨cut, last, rfl⟩
    · have hlength := congrArg List.length hwindow
      rw [nil_append] at hlength
      omega
    obtain ⟨previous, m, rfl⟩ := (eq_nil_or_concat before).resolve_left hbefore
    simp only [concat_eq_append] at hfront hwindow
    have hlast : last = auditLogLineTerminator := by
      rw [unlines_append, unlines_cons, unlines_nil, ← append_assoc] at hfront
      have := congrArg List.getLast? hfront
      simpa using this.symm
    obtain ⟨hlines, -⟩ := linesOf_unlines_append hclean
      (fragmentOf auditLogLineTerminator (front ++ window))
    rw [linesOf_of_not_mem (not_mem_fragmentOf _ _), append_nil] at hlines
    have hnonempty : linesOf auditLogLineTerminator (cut ++ [last]) ≠ [] := by
      rw [hlast, linesOf_append, linesOf_terminator]
      simp [continued]
    have hwindowLines : linesOf auditLogLineTerminator window =
        linesOf auditLogLineTerminator (cut ++ [last]) ++ line :: after := by
      have hfragment : fragmentOf auditLogLineTerminator (cut ++ [last]) = [] := by
        rw [hlast, fragmentOf_line]
      conv_lhs => rw [hwindow]
      rw [linesOf_append, hfragment, continued_nil, hlines]
    rw [hwindowLines, tail_append_of_ne_nil hnonempty]
    by_contra hnone
    rw [Option.not_isSome_iff_eq_none, lastRecord_eq_none] at hnone
    have := hnone line (by simp)
    rw [hline] at this
    cases this

theorem frame_eq_resolved {front : Bytes} (hfront : anchored = true → front = [])
    (h : anchored = true ∨ Within (front ++ window) window.length) :
    frame window anchored = .resolved (tailOf (front ++ window)) := by
  rw [frame_eq]
  cases anchored with
  | true => rw [hfront rfl, if_pos rfl, nil_append]
  | false =>
    have hsome := lastRecord_tail_isSome.mpr (h.resolve_left (by simp))
    obtain ⟨last, hlast⟩ := Option.isSome_iff_exists.mp hsome
    rw [hlast, tailOf_append hlast]
    rfl

theorem frame_eq_needMore {front : Bytes} (h : ¬Within (front ++ window) window.length) :
    frame window false = .needMore := by
  have hnone : lastRecord (linesOf auditLogLineTerminator window).tail = none := by
    by_contra hsome
    exact h (lastRecord_tail_isSome.mp (Option.isSome_iff_ne_none.mpr hsome))
  rw [frame_eq, hnone]
  rfl

theorem frame_window (log : Bytes) (window : Nat) :
    ((log.length ≤ window ∨ Within log window) ∧
        frame (log.drop (log.length - window)) (log.length - window = 0) =
          .resolved (tailOf log)) ∨
      (¬(log.length ≤ window ∨ Within log window) ∧
        frame (log.drop (log.length - window)) (log.length - window = 0) = .needMore) := by
  have hsplit := take_append_drop (log.length - window) log
  by_cases hshort : log.length ≤ window
  · have hzero : log.length - window = 0 := by omega
    refine Or.inl ⟨Or.inl hshort, ?_⟩
    rw [hzero, drop_zero]
    exact @frame_eq_resolved log _ [] (fun _ => rfl) (Or.inl (by simp))
  · have hlength : (log.drop (log.length - window)).length = window := by
      rw [length_drop]
      omega
    have hstart : decide (log.length - window = 0) = false := by
      rw [decide_eq_false_iff_not]
      omega
    rw [hstart]
    by_cases hwithin : Within log window
    · refine Or.inl ⟨Or.inr hwithin, ?_⟩
      have hframe := @frame_eq_resolved (log.drop (log.length - window)) false
        (log.take (log.length - window))
      rw [hsplit, hlength] at hframe
      exact hframe (by simp) (Or.inr hwithin)
    · refine Or.inr ⟨by simp [hshort, hwithin], ?_⟩
      apply @frame_eq_needMore _ (log.take (log.length - window))
      rwa [hsplit, hlength]

end Dctl.Audit
