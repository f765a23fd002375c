import FindExpr.Proofs.Recognizer.Owed

namespace FindExpr

namespace Event

def startsGroup : Event → Bool
  | groupStart _ => true
  | _ => false

def endsGroup : Event → Bool
  | groupEnd _ => true
  | _ => false

end Event

namespace Recognizer

def openGroups (es : List Event) : Int := es.countP Event.startsGroup - es.countP Event.endsGroup

/-- Events that go from one depth to another, at most `limit` deep, and end no group that has not
been started. -/
def Nests (limit : Nat) : Nat → List Event → Nat → Prop
  | depth, [], r => depth = r
  | depth, .groupStart _ :: es, r => depth < limit ∧ Nests limit (depth + 1) es r
  | depth, .groupEnd _ :: es, r => 0 < depth ∧ Nests limit (depth - 1) es r
  | depth, _ :: es, r => Nests limit depth es r

theorem openGroups_cons (e : Event) (es : List Event) :
    openGroups (e :: es) = openGroups [e] + openGroups es := by
  simp only [openGroups, List.countP_cons, List.countP_nil]
  omega

namespace Nests

variable {limit a b c : Nat} {es us vs : List Event}

theorem append (hu : Nests limit a us b) (hv : Nests limit b vs c) :
    Nests limit a (us ++ vs) c := by
  induction us generalizing a with
  | nil =>
      obtain rfl : a = b := hu
      exact hv
  | cons e us ih =>
      cases e with
      | groupStart | groupEnd => exact ⟨hu.1, ih hu.2⟩
      | _ => exact ih hu

theorem of_append (h : Nests limit a (us ++ vs) c) : ∃ b, Nests limit a us b := by
  induction us generalizing a with
  | nil => exact ⟨a, rfl⟩
  | cons e us ih =>
      cases e with
      | groupStart | groupEnd =>
          obtain ⟨b, hb⟩ := ih h.2
          exact ⟨b, h.1, hb⟩
      | _ => exact ih h

theorem add_openGroups (h : Nests limit a es b) : a + openGroups es = b := by
  induction es generalizing a with
  | nil =>
      obtain rfl : a = b := h
      exact Int.add_zero _
  | cons e es ih =>
      rw [openGroups_cons, ← Int.add_assoc]
      cases e with
      | groupStart place =>
          rw [← ih h.2]
          rfl
      | groupEnd place =>
          rw [← ih h.2, Int.natCast_sub h.1]
          rfl
      | _ => exact (congrArg (· + openGroups es) (Int.add_zero _)).trans (ih h)

theorem le (h : Nests limit a es b) (ha : a ≤ limit) : b ≤ limit := by
  induction es generalizing a with
  | nil =>
      obtain rfl : a = b := h
      exact ha
  | cons e es ih =>
      cases e with
      | groupStart => exact ih h.2 h.1
      | groupEnd => exact ih h.2 (by omega)
      | _ => exact ih h ha

end Nests

variable {limit : Nat} {q r : State} {t : Token} {ts : List Token} {es us : List Event}
  {items : List Item}

theorem nests_owed (limit : Nat) (q : State) : Nests limit q.depth q.owed q.depth := by
  cases q <;> rfl

theorem Move.nests (h : Move limit q t es r) : Nests limit q.depth es r.depth := by
  have ho := nests_owed limit q
  cases h with
  | select hq | filter hq | orderBy hq | limit hq | offset hq =>
      rw [State.depth, State.opened_of_mem_clauses hq] at ho ⊢
      exact ho
  | operand => exact ho
  | group _ _ hd => exact ho.append ⟨hd, rfl⟩
  | close => exact ⟨Nat.succ_pos _, rfl⟩
  | _ => rfl

theorem Path.nests (p : Path limit q ts es r) : Nests limit q.depth es r.depth := by
  induction p with
  | nil => rfl
  | cons h _ ih => exact (move_of_step h).nests.append ih

theorem exists_nests_of_prefix (hu : us <+: (trace limit items).state) :
    ∃ depth, Nests limit 0 us depth := by
  obtain ⟨ts, es, r, rest, rfl, p, hs⟩ := exists_stop limit .start items
  obtain ⟨vs, hv⟩ := hu.trans (state_prefix_of_stop p hs)
  exact Nests.of_append (hv ▸ p.nests.append (nests_owed limit r))

end Recognizer

end FindExpr
