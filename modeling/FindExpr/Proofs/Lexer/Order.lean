import FindExpr.Proofs.Lexer.Tiling

namespace FindExpr

def Item.start : Item → Position
  | .ok t => t.start
  | .error d => d.start

variable {source before stop : List Char} {ts : List Token}

theorem Tiles.exists_behind (h : Tiles source before ts stop) :
    ∀ p ∈ ts.map Token.start ++ [.behind stop], ∃ text, p = .behind (before ++ text) := by
  induction h with
  | @done before => exact List.forall_mem_singleton.2 ⟨[], by rw [List.append_nil]⟩
  | next h _ _ ih =>
      refine List.forall_mem_cons.2 ⟨⟨[], by rw [List.append_nil, h.start_eq]⟩, fun p hp => ?_⟩
      obtain ⟨text, rfl⟩ := ih p hp
      simp only [List.append_assoc]
      exact ⟨_, rfl⟩

theorem Tiles.pairwise_precedes (h : Tiles source before ts stop) :
    (ts.map Token.start ++ [Position.behind stop]).Pairwise fun p q => p.precedes q = true := by
  induction h with
  | done => exact List.pairwise_singleton ..
  | @next before lead trail after t ts stop h _ hs ih =>
      refine List.pairwise_cons.2 ⟨fun p hp => ?_, ih⟩
      obtain ⟨text, rfl⟩ := hs.exists_behind p hp
      rw [h.start_eq, List.append_assoc, List.append_assoc, List.append_assoc]
      refine Position.behind_precedes ?_ before
      simp [h.written_ne]

theorem exists_tiles (source : String) :
    ∃ (ts : List Token) (last : Item) (stop : List Char), tokenize source = ts.map .ok ++ [last] ∧
      Tiles source.toList [] ts stop ∧ last.EndsAt source.toList stop := by
  obtain ⟨ts, last, stop, hr⟩ := (Lexer.standsBehind_ofSource source).exists_reads
    (source.toList.length + 1) (by simp) rfl (Nat.lt_succ_self _)
  exact ⟨ts, last, stop, hr.items_eq, hr.tiles, hr.ends⟩

theorem starts_increase (source : String) :
    ((tokenize source).map Item.start).Pairwise fun p q => p.precedes q = true := by
  obtain ⟨ts, last, stop, ht, hs, he⟩ := exists_tiles source
  have hl : last.start = .behind stop := by
    cases last with
    | ok t => exact he.2.1
    | error d => exact he
  rw [ht, List.map_append, List.map_map, List.map_singleton, hl]
  exact hs.pairwise_precedes

theorem eq_of_start_eq {source : String} {us us' vs vs' : List Item} {i i' : Item}
    (h : tokenize source = us ++ i :: vs) (h' : tokenize source = us' ++ i' :: vs')
    (hs : i.start = i'.start) : us = us' ∧ i = i' ∧ vs = vs' := by
  -- An item behind another one begins behind it, so neither of the two comes first.
  have hn {before mid after : List Item} {j j' : Item}
      (he : tokenize source = before ++ j :: (mid ++ j' :: after)) : j.start ≠ j'.start := by
    intro hj
    have hp := starts_increase source
    rw [he, List.map_append, List.pairwise_append, List.map_cons, List.pairwise_cons] at hp
    have hlt := Position.precedes_iff.1 (hp.2.1.1 j'.start (List.mem_map_of_mem (by simp)))
    rw [hj] at hlt
    omega
  rcases List.append_eq_append_iff.1 (h.symm.trans h') with ⟨ws, rfl, he⟩ | ⟨ws, rfl, he⟩
  · cases ws with
    | nil => exact ⟨(List.append_nil us).symm, List.cons_eq_cons.1 he⟩
    | cons w ws =>
        obtain ⟨rfl, rfl⟩ := List.cons.inj he
        exact absurd hs (hn h)
  · cases ws with
    | nil =>
        obtain ⟨rfl, rfl⟩ := List.cons.inj he
        exact ⟨List.append_nil us', rfl, rfl⟩
    | cons w ws =>
        obtain ⟨rfl, rfl⟩ := List.cons.inj he
        exact absurd hs.symm (hn h')

theorem start_precedes_stop {source : String} {t : Token} (h : .ok t ∈ tokenize source)
    (ht : t.isEnd = false) : t.start.precedes t.stop = true := by
  obtain ⟨ts, last, stop, hi, hs, he⟩ := exists_tiles source
  rw [hi, List.mem_append, List.mem_singleton] at h
  rcases h with hm | rfl
  · obtain ⟨u, hu, hut⟩ := List.mem_map.1 hm
    obtain rfl : u = t := Except.ok.inj hut
    exact Position.precedes_iff.2 (.inl (hs.column_lt u hu))
  · exact absurd he.1 (by simp [ht])

end FindExpr
