import FindExpr.Text.Utf8

namespace FindExpr.Text

/-- Whether a byte offset falls between two characters of a text, or on one of its ends. -/
def IsBoundary (text : List Char) (offset : Nat) : Prop :=
  ∃ before after, text = before ++ after ∧ offset = size before

variable {n start stop : Nat} {text cut : List Char}

theorem isBoundary_size (before after : List Char) : IsBoundary (before ++ after) (size before) :=
  ⟨before, after, rfl, rfl⟩

theorem IsBoundary.le (h : IsBoundary text n) : n ≤ size text := by
  obtain ⟨before, after, rfl, rfl⟩ := h
  simp

theorem exists_append_of_takeBytes? (h : takeBytes? n text = some cut) :
    ∃ rest, text = cut ++ rest ∧ size cut = n := by
  induction text generalizing n cut with
  | nil =>
      cases n with
      | zero =>
          obtain rfl := Option.some.inj h
          exact ⟨[], rfl, rfl⟩
      | succ n => cases h
  | cons c text ih =>
      cases n with
      | zero =>
          obtain rfl := Option.some.inj h
          exact ⟨c :: text, rfl, rfl⟩
      | succ n =>
          rw [takeBytes?] at h
          split at h
          · next hc =>
              obtain ⟨cut, hcut, rfl⟩ := Option.map_eq_some_iff.1 h
              obtain ⟨rest, rfl, hs⟩ := ih hcut
              exact ⟨rest, rfl, by rw [size_cons, hs, Nat.add_sub_cancel' hc]⟩
          · cases h

theorem exists_append_of_dropBytes? (h : dropBytes? n text = some cut) :
    ∃ before, text = before ++ cut ∧ size before = n := by
  induction text generalizing n with
  | nil =>
      cases n with
      | zero => exact ⟨[], Option.some.inj h, rfl⟩
      | succ n => cases h
  | cons c text ih =>
      cases n with
      | zero => exact ⟨[], Option.some.inj h, rfl⟩
      | succ n =>
          rw [dropBytes?] at h
          split at h
          · next hc =>
              obtain ⟨before, rfl, hs⟩ := ih h
              exact ⟨c :: before, rfl, by rw [size_cons, hs, Nat.add_sub_cancel' hc]⟩
          · cases h

theorem exists_append_of_slice? (h : slice? text start stop = some cut) :
    ∃ before after, text = before ++ cut ++ after ∧ size before = start ∧
      start + size cut = stop := by
  rw [slice?] at h
  split at h
  · next hle =>
      obtain ⟨rest, hd, ht⟩ := Option.bind_eq_some_iff.1 h
      obtain ⟨before, rfl, hb⟩ := exists_append_of_dropBytes? hd
      obtain ⟨after, rfl, hc⟩ := exists_append_of_takeBytes? ht
      exact ⟨before, after, by rw [List.append_assoc], hb, by rw [hc, Nat.add_sub_cancel' hle]⟩
  · cases h

end FindExpr.Text
