namespace FindExpr.Text

def size : List Char → Nat
  | [] => 0
  | c :: rest => c.utf8Size + size rest

def takeBytes? : Nat → List Char → Option (List Char)
  | 0, _ => some []
  | _ + 1, [] => none
  | n + 1, c :: rest =>
    if c.utf8Size ≤ n + 1 then (takeBytes? (n + 1 - c.utf8Size) rest).map (c :: ·) else none

def dropBytes? : Nat → List Char → Option (List Char)
  | 0, text => some text
  | _ + 1, [] => none
  | n + 1, c :: rest =>
    if c.utf8Size ≤ n + 1 then dropBytes? (n + 1 - c.utf8Size) rest else none

/-- The bytes of a text from offset `start` up to offset `stop`. -/
def slice? (text : List Char) (start stop : Nat) : Option (List Char) :=
  if start ≤ stop then (dropBytes? start text).bind (takeBytes? (stop - start)) else none

@[simp] theorem size_nil : size [] = 0 := rfl

@[simp] theorem size_cons (c : Char) (rest : List Char) :
    size (c :: rest) = c.utf8Size + size rest := rfl

@[simp] theorem size_append (xs ys : List Char) : size (xs ++ ys) = size xs + size ys := by
  induction xs with
  | nil => simp
  | cons c rest ih => simp [ih, Nat.add_assoc]

@[simp] theorem takeBytes?_size_append (xs ys : List Char) :
    takeBytes? (size xs) (xs ++ ys) = some xs := by
  induction xs with
  | nil => cases ys <;> rfl
  | cons c rest ih =>
    have hc := c.utf8Size_pos
    obtain ⟨n, hn⟩ : ∃ n, size (c :: rest) = n + 1 := ⟨size (c :: rest) - 1, by simp; omega⟩
    rw [hn, List.cons_append, takeBytes?, ← hn, if_pos (by simp)]
    simp [ih]

@[simp] theorem dropBytes?_size_append (xs ys : List Char) :
    dropBytes? (size xs) (xs ++ ys) = some ys := by
  induction xs with
  | nil => cases ys <;> rfl
  | cons c rest ih =>
    have hc := c.utf8Size_pos
    obtain ⟨n, hn⟩ : ∃ n, size (c :: rest) = n + 1 := ⟨size (c :: rest) - 1, by simp; omega⟩
    rw [hn, List.cons_append, dropBytes?, ← hn, if_pos (by simp)]
    simp [ih]

theorem slice?_append_append (xs ys zs : List Char) :
    slice? (xs ++ ys ++ zs) (size xs) (size xs + size ys) = some ys := by
  simp [slice?]

end FindExpr.Text
