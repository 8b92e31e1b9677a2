import Dctl.Cli.Paths
import Dctl.Store.LocalListing

/-! The enumeration of a plain remote, one provider page at a time (`source/plain.rs`). -/

namespace Dctl.Cli.PlainSource

open ProofKit Pager Paths Dctl.Store
open Dctl.Store.LocalFs (ObjectMeta)

variable {Found : Type}

structure Page (Found : Type) where
  items : List ObjectMeta
  nextCursor : Option String
  found : Found

/-- What a backend answers to the `n`-th request for a page, which asks with a cursor. -/
abbrev Pages (Found : Type) : Type := Nat → Option String → Except StoreError (Page Found)

structure Paged (Found : Type) where
  start : Path
  cursor : Option String
  exhausted : Bool
  page : List Entry
  found : Found
  requests : Nat

def fromMeta (object : ObjectMeta) : Entry :=
  ⟨object.key.toList, some object.size, object.modifiedUnix⟩

def enumerate (start : Path) (nothing : Found) : Paged Found :=
  { start, cursor := none, exhausted := false, page := [], found := nothing, requests := 0 }

def kept (start : Path) (items : List ObjectMeta) : List Entry :=
  (items.filter fun object => isUnder start object.key.toList).map fromMeta

variable (merge : Found → Found → Found) (pages : Pages Found)

def Paged.load (paged : Paged Found) (page : Page Found) : Paged Found :=
  let stalled := page.items.isEmpty && page.nextCursor = paged.cursor
  { start := paged.start
    found := merge paged.found page.found
    page := kept paged.start page.items
    exhausted := stalled || page.nextCursor.isNone
    cursor := page.nextCursor
    requests := paged.requests + 1 }

def Paged.fetch (paged : Paged Found) : Except StoreError (Paged Found) := do
  let page ← pages paged.requests paged.cursor
  pure (paged.load merge page)

/-- One pass of the loop of `next`: an answer for the caller, or another pass. -/
def Paged.next (paged : Paged Found) :
    Except StoreError (Option Entry) × Paged Found ⊕ Paged Found :=
  match paged.page with
  | entry :: rest => .inl (.ok (some entry), { paged with page := rest })
  | [] =>
    if paged.exhausted then .inl (.ok none, paged)
    else match paged.fetch merge pages with
      | .error e => .inl (.error e, { paged with requests := paged.requests + 1 })
      | .ok fetched => .inr fetched

structure Drain (Found : Type) where
  paged : Paged Found
  entries : List Entry

def Drain.turn (s : Drain Found) : (Except StoreError (List Entry) × Nat) ⊕ Drain Found :=
  match s.paged.next merge pages with
  | .inr paged => .inr { s with paged }
  | .inl (.ok (some entry), paged) => .inr ⟨paged, s.entries ++ [entry]⟩
  | .inl (.ok none, paged) => .inl (.ok s.entries, paged.requests)
  | .inl (.error e, paged) => .inl (.error e, paged.requests)

def entries (start : Path) (nothing : Found) (fuel : Nat) :
    Option (Except StoreError (List Entry) × Nat) :=
  passes (Drain.turn merge pages) fuel ⟨enumerate start nothing, []⟩

/-- The listing has no next page, or the page is empty and its cursor is the one that was sent. -/
def EndsOrStalls (cursor : Option String) (page : Page Found) : Prop :=
  page.nextCursor = none ∨ page.items = [] ∧ page.nextCursor = cursor

variable {merge pages}

theorem turn_page {paged : Paged Found} {entry : Entry} {rest entries : List Entry}
    (hpage : paged.page = entry :: rest) : Drain.turn merge pages ⟨paged, entries⟩ =
      .inr ⟨{ paged with page := rest }, entries ++ [entry]⟩ := by
  rw [Drain.turn, Paged.next, hpage]

theorem turn_exhausted {paged : Paged Found} {entries : List Entry} (hpage : paged.page = [])
    (hexhausted : paged.exhausted = true) :
    Drain.turn merge pages ⟨paged, entries⟩ = .inl (.ok entries, paged.requests) := by
  rw [Drain.turn, Paged.next, hpage]
  simp only [hexhausted, if_true]

theorem turn_error {paged : Paged Found} {entries : List Entry} {e : StoreError}
    (hpage : paged.page = []) (hexhausted : paged.exhausted = false)
    (herror : pages paged.requests paged.cursor = .error e) :
    Drain.turn merge pages ⟨paged, entries⟩ = .inl (.error e, paged.requests + 1) := by
  have hfetch : paged.fetch merge pages = .error e := by
    rw [Paged.fetch, herror]
    rfl
  rw [Drain.turn, Paged.next, hpage]
  simp only [hexhausted, Bool.false_eq_true, if_false, hfetch]

theorem turn_fetch {paged : Paged Found} {entries : List Entry} {page : Page Found}
    (hpage : paged.page = []) (hexhausted : paged.exhausted = false)
    (hok : pages paged.requests paged.cursor = .ok page) :
    Drain.turn merge pages ⟨paged, entries⟩ = .inr ⟨paged.load merge page, entries⟩ := by
  have hfetch : paged.fetch merge pages = .ok (paged.load merge page) := by
    rw [Paged.fetch, hok]
    rfl
  rw [Drain.turn, Paged.next, hpage]
  simp only [hexhausted, Bool.false_eq_true, if_false, hfetch]

theorem exhausted_load (merge : Found → Found → Found) {paged : Paged Found} {page : Page Found} :
    (paged.load merge page).exhausted = true ↔ EndsOrStalls paged.cursor page := by
  simp [Paged.load, EndsOrStalls, or_comm]

variable (merge pages) in
theorem passes_page (paged : Paged Found) (entries : List Entry) (fuel : Nat) :
    passes (Drain.turn merge pages) (paged.page.length + fuel) ⟨paged, entries⟩ =
      passes (Drain.turn merge pages) fuel ⟨{ paged with page := [] }, entries ++ paged.page⟩ := by
  obtain ⟨start, cursor, exhausted, page, found, requests⟩ := paged
  induction page generalizing entries with
  | nil => rw [List.length_nil, Nat.zero_add, List.append_nil]
  | cons entry rest ih =>
    rw [List.length_cons, Nat.add_right_comm, passes_inr (turn_page rfl)]
    have hrest := ih (entries ++ [entry])
    rw [List.append_assoc] at hrest
    exact hrest

theorem entries_follows :
    Follows Page.nextCursor pages EndsOrStalls (Drain.turn merge pages)
      (fun n s => s.paged.requests = n ∧ s.paged.cursor = asked Page.nextCursor pages n ∧
        s.paged.exhausted = false ∧ s.paged.page = [])
      (fun n r => r.2 = n + 1 ∧ ((∃ entries, r.1 = .ok entries) ↔
        ∃ page, answered Page.nextCursor pages n = .ok page ∧ True)) where
  goes := by
    rintro n ⟨paged, entries⟩ ⟨rfl, hcursor, hexhausted, hempty⟩ hopen
    obtain ⟨page, hpage, hopen⟩ := exists_of_not_closes hopen
    have hasked := asked_succ hpage
    rw [answered, ← hcursor] at hpage
    rw [← hcursor] at hopen
    refine ⟨_, ⟨rfl, hasked.symm, ?_, rfl⟩, Leads.of_turn_then (turn_fetch hempty hexhausted hpage)
      fun fuel => passes_page _ _ _ entries fuel⟩
    exact Bool.eq_false_iff.mpr fun hlast => hopen ((exhausted_load merge).mp hlast)
  ends := by
    rintro n ⟨paged, entries⟩ ⟨rfl, hcursor, hexhausted, hempty⟩ hclosed
    cases hpage : pages paged.requests paged.cursor with
    | error e =>
      refine ⟨1, _, passes_inl (turn_error hempty hexhausted hpage), rfl, ?_⟩
      rw [answered, ← hcursor, hpage]
      simp
    | ok page =>
      have hanswered : answered Page.nextCursor pages paged.requests = .ok page := by
        rw [answered, ← hcursor, hpage]
      have hends := hclosed page hanswered
      rw [← hcursor] at hends
      have hdrained := passes_page merge pages (paged.load merge page) entries 1
      have hend : Drain.turn merge pages
          ⟨{ paged.load merge page with page := [] }, entries ++ (paged.load merge page).page⟩ =
          .inl (.ok (entries ++ (paged.load merge page).page), paged.requests + 1) :=
        turn_exhausted rfl ((exhausted_load merge).mpr hends)
      rw [passes_inl hend] at hdrained
      rw [← passes_inr (turn_fetch hempty hexhausted hpage)] at hdrained
      exact ⟨_, _, hdrained, rfl, iff_of_true ⟨_, rfl⟩ ⟨page, hanswered, trivial⟩⟩

end Dctl.Cli.PlainSource
