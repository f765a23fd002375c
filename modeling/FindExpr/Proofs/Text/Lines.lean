import FindExpr.Proofs.Text.Blank
import FindExpr.Text.Lines
import Mathlib.Data.List.Induction

namespace FindExpr.Text

def OpensLine (head : List Char) : Prop := head = [] ∨ head.getLast? = some '\n'

/-- Whether all of a line is followed by `rest`: the end of the text, or a line feed with or without
a carriage return before it. -/
structure LineEnds (row rest : List Char) : Prop where
  lineFeed_not_mem : '\n' ∉ row
  rest_begins : rest = [] ∨ (∃ text, rest = '\r' :: '\n' :: text) ∨
    ∃ text, rest = '\n' :: text ∧ row.getLast? ≠ some '\r'

/-- Whether `tail` is what stands on a line before a place of a text and `row` is all of it. -/
def OnLine (before behind tail row : List Char) : Prop :=
  ∃ head rest, before = head ++ tail ∧ OpensLine head ∧ '\n' ∉ tail ∧
    tail ++ behind = row ++ rest ∧ LineEnds row rest

variable {c : Char} {before behind text head tail row rest more : List Char}

theorem lines_cons (hc : c ≠ '\n') (hr : c = '\r' → text.head? ≠ some '\n') :
    lines (c :: text) =
      match lines text with
      | [] => [[c]]
      | row :: others => (c :: row) :: others := by
  have hn (rest : List Char) (hc : c = '\r') (ht : text = '\n' :: rest) : False :=
    hr hc (congrArg List.head? ht)
  exact lines.eq_4 c text hc hn

theorem tail_lines_cons (hc : c ≠ '\n') (text : List Char) :
    (lines (c :: text)).tail = (lines text).tail := by
  by_cases hr : c = '\r' ∧ text.head? = some '\n'
  · obtain ⟨rfl, ht⟩ := hr
    obtain ⟨text, rfl⟩ := List.head?_eq_some_iff.1 ht
    rfl
  · rw [lines_cons hc fun h ht => hr ⟨h, ht⟩]
    cases lines text <;> rfl

theorem OpensLine.of_cons (h : OpensLine (c :: head)) : OpensLine head := by
  cases head with
  | nil => exact .inl rfl
  | cons d head => exact .inr (by simpa [OpensLine, List.getLast?_cons_cons] using h)

theorem getElem?_lines (h : OpensLine head) (text : List Char) :
    (lines (head ++ text))[head.count '\n']? = (lines text).head? := by
  induction head with
  | nil => exact List.head?_eq_getElem?.symm
  | cons c head ih =>
      rw [← ih h.of_cons]
      by_cases hc : c = '\n'
      · subst hc
        rw [List.count_cons_self]
        rfl
      · have hn : '\n' ∈ head := by
          have hl : (c :: head).getLast? = some '\n' := h.resolve_left (List.cons_ne_nil c head)
          rcases List.mem_cons.1 (List.mem_of_getLast? hl) with hm | hm
          · exact absurd hm.symm hc
          · exact hm
        obtain ⟨n, hn⟩ := Nat.exists_eq_add_of_lt (List.count_pos_iff.2 hn)
        have ht := tail_lines_cons hc (head ++ text)
        rw [List.count_cons_of_ne hc, hn, Nat.zero_add, List.cons_append, ← List.getElem?_tail, ht,
          List.getElem?_tail]

theorem LineEnds.of_cons (h : LineEnds (c :: row) rest) : LineEnds row rest := by
  refine ⟨fun hm => h.lineFeed_not_mem (List.mem_cons_of_mem c hm), ?_⟩
  rcases h.rest_begins with hr | hr | ⟨text, hr, hl⟩
  · exact .inl hr
  · exact .inr (.inl hr)
  · refine .inr (.inr ⟨text, hr, ?_⟩)
    cases row with
    | nil => simp
    | cons d row => rwa [List.getLast?_cons_cons] at hl

theorem LineEnds.head?_lines (h : LineEnds row rest) (hn : row ++ rest ≠ []) :
    (lines (row ++ rest)).head? = some row := by
  induction row with
  | nil =>
      rcases h.rest_begins with rfl | ⟨text, rfl⟩ | ⟨text, rfl, -⟩
      · exact absurd rfl hn
      · rfl
      · rfl
  | cons c row ih =>
      have hc : c ≠ '\n' := fun hc => h.lineFeed_not_mem (hc ▸ List.mem_cons_self)
      have hr : c = '\r' → (row ++ rest).head? ≠ some '\n' := by
        rintro rfl ht
        cases row with
        | cons d row =>
            obtain rfl := Option.some.inj ht
            exact h.lineFeed_not_mem (by simp)
        | nil =>
            rcases h.rest_begins with rfl | ⟨text, rfl⟩ | ⟨text, rfl, hl⟩
            · cases ht
            · cases ht
            · exact hl rfl
      rw [List.cons_append, lines_cons hc hr]
      by_cases hn : row ++ rest = []
      · obtain ⟨rfl, rfl⟩ := List.append_eq_nil_iff.1 hn
        rfl
      · have hi := ih h.of_cons hn
        cases hl : lines (row ++ rest) with
        | nil => simp [hl] at hi
        | cons first others =>
            rw [hl] at hi
            exact congrArg (Option.map (c :: ·)) hi

theorem exists_lineEnds (text : List Char) :
    ∃ row rest, text = row ++ rest ∧ LineEnds row rest := by
  induction text with
  | nil => exact ⟨[], [], rfl, by simp, .inl rfl⟩
  | cons c text ih =>
      obtain ⟨row, rest, rfl, h⟩ := ih
      by_cases hc : c = '\n'
      · exact ⟨[], c :: (row ++ rest), rfl, by simp, .inr (.inr ⟨_, by rw [hc], by simp⟩)⟩
      · have hn : '\n' ∉ c :: row := List.not_mem_cons_of_ne_of_not_mem (Ne.symm hc)
          h.lineFeed_not_mem
        rcases h.rest_begins with rfl | hr | ⟨text, rfl, hl⟩
        · exact ⟨c :: row, [], rfl, hn, .inl rfl⟩
        · exact ⟨c :: row, rest, rfl, hn, .inr (.inl hr)⟩
        · by_cases hr : (c :: row).getLast? = some '\r'
          · cases row with
            | nil =>
                obtain rfl : c = '\r' := by simpa using hr
                exact ⟨[], _, rfl, by simp, .inr (.inl ⟨text, rfl⟩)⟩
            | cons d row =>
                rw [List.getLast?_cons_cons] at hr
                exact absurd hr hl
          · exact ⟨c :: row, _, rfl, hn, .inr (.inr ⟨text, rfl, hr⟩)⟩

theorem exists_opensLine (text : List Char) :
    ∃ head tail, text = head ++ tail ∧ OpensLine head ∧ '\n' ∉ tail := by
  induction text using List.reverseRecOn with
  | nil => exact ⟨[], [], rfl, .inl rfl, by simp⟩
  | append_singleton text c ih =>
      obtain ⟨head, tail, rfl, hh, ht⟩ := ih
      by_cases hc : c = '\n'
      · exact ⟨head ++ tail ++ [c], [], by simp, .inr (by simp [hc]), by simp⟩
      · exact ⟨head, tail ++ [c], by simp, hh, by simpa [Ne.symm hc] using ht⟩

theorem LineEnds.getElem?_length (h : LineEnds row rest) (ht : '\n' ∉ tail) (hn : c ≠ '\n')
    (hr : c ≠ '\r') (he : tail ++ c :: more = row ++ rest) : row[tail.length]? = some c := by
  have hm : '\n' ∉ tail ++ [c] := by simpa [Ne.symm hn] using ht
  rw [List.append_cons] at he
  rcases List.append_eq_append_iff.1 he with ⟨xs, rfl, -⟩ | ⟨xs, hl, hx⟩
  · simp
  · -- Otherwise the rest would begin before `c` is over, but it begins with a line break.
    have hxs : '\n' ∉ xs := fun h => hm (hl ▸ List.mem_append_right row h)
    have hlast : xs.getLast? ≠ some '\r' := by
      intro h
      obtain ⟨ys, rfl⟩ := List.getLast?_eq_some_iff.1 h
      rw [← List.append_assoc] at hl
      exact hr (List.cons.inj (List.append_inj' hl rfl).2).1
    cases xs with
    | nil =>
        rw [List.append_nil] at hl
        simp [← hl]
    | cons x xs =>
        rcases h.rest_begins with rfl | ⟨text, rfl⟩ | ⟨text, rfl, -⟩
        · cases hx
        · obtain ⟨rfl, hy⟩ := List.cons.inj hx
          cases xs with
          | nil => exact absurd rfl hlast
          | cons y ys =>
              obtain ⟨rfl, -⟩ := List.cons.inj hy
              exact absurd (by simp) hxs
        · obtain ⟨rfl, -⟩ := List.cons.inj hx
          exact absurd List.mem_cons_self hxs

theorem exists_onLine (before behind : List Char) : ∃ tail row, OnLine before behind tail row := by
  obtain ⟨head, tail, rfl, hh, ht⟩ := exists_opensLine before
  obtain ⟨row, rest, hl, he⟩ := exists_lineEnds (tail ++ behind)
  exact ⟨tail, row, head, rest, rfl, hh, ht, hl, he⟩

theorem exists_onLine_of_not_mem (h : '\n' ∉ before) (behind : List Char) :
    ∃ row, OnLine before behind before row := by
  obtain ⟨row, rest, hl, he⟩ := exists_lineEnds (before ++ behind)
  exact ⟨row, [], rest, rfl, .inl rfl, h, hl, he⟩

/-- The line of a place by its number. It is missing at the end of a text that is empty or ends with
a line feed. -/
theorem OnLine.getElem?_lines (h : OnLine before behind tail row) :
    (lines (before ++ behind))[before.count '\n']? =
      if tail ++ behind = [] then none else some row := by
  obtain ⟨head, rest, rfl, hh, ht, hl, he⟩ := h
  rw [List.append_assoc, List.count_append, List.count_eq_zero_of_not_mem ht, Nat.add_zero,
    Text.getElem?_lines hh, hl]
  split
  · next hn =>
      rw [hn]
      rfl
  · next hn => exact he.head?_lines hn

theorem OnLine.length_le_iff (h : OnLine before (text ++ more) tail row) (hn : text ≠ [])
    (ht : trimEnd text = text) : (tail ++ text).length ≤ row.length ↔ '\n' ∉ text := by
  obtain ⟨head, rest, -, -, hm, hl, he⟩ := h
  constructor
  · intro hle hb
    rw [← List.append_assoc] at hl
    have hp : tail ++ text <+: row := List.prefix_of_prefix_length_le ⟨more, hl⟩ ⟨rest, rfl⟩ hle
    exact he.lineFeed_not_mem (hp.subset (List.mem_append_right tail hb))
  · intro hb
    obtain ⟨init, c, rfl, hc⟩ := exists_snoc_of_trimEnd ht hn
    obtain ⟨hcn, hcr⟩ := break_ne_of_not_blank hc
    have hi : '\n' ∉ tail ++ init := by
      simp only [List.mem_append, not_or] at hb ⊢
      exact ⟨hm, hb.1⟩
    have hl' : (tail ++ init) ++ c :: more = row ++ rest := by simpa using hl
    obtain ⟨hlt, -⟩ := List.getElem?_eq_some_iff.1 (he.getElem?_length hi hcn hcr hl')
    rwa [← List.append_assoc, List.length_append, List.length_singleton]

theorem OnLine.eq_of_nil (h : OnLine before [] tail row) : row = tail := by
  obtain ⟨head, rest, -, -, hm, hl, he⟩ := h
  rw [List.append_nil] at hl
  rcases he.rest_begins with rfl | ⟨text, rfl⟩ | ⟨text, rfl, -⟩
  · rw [hl, List.append_nil]
  · exact absurd (hl ▸ by simp) hm
  · exact absurd (hl ▸ by simp) hm

end FindExpr.Text
