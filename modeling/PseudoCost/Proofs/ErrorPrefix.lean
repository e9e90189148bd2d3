import PseudoCost.Proofs.ScriptedReading

/-!
# Errors are decided by a prefix

If a token list does not spell a program, reading fails at one of its tokens, and nothing beyond the
token after that one has a part in it: every list that begins in the same way fails there too, with
the same message (`Program.ofTokens_mismatch_decided`).

Reading programs is a script, so this is what scripts do in general. Two tokens from the place of
the failure on are all that a script can see from there (`Script.walk_of_agree`); where the list is
too short to have them, lists that begin in the same way are the same list.
-/

namespace PseudoCost

/-! ## Lists with an end -/

section Lists

variable {body body' : List Token} {last last' : Token}

theorem prefix_of_prefix_concat (hbody : ∀ t ∈ body, t.kind ≠ .eof) (hlast' : last'.kind = .eof)
    (h : body <+: body' ++ [last']) : body <+: body' := by
  rcases List.prefix_concat_iff.mp h with rfl | h
  · exact absurd hlast' (hbody last' (List.mem_append_right _ (List.mem_singleton_self last')))
  · exact h

/-- A list with its end begins no other such list. -/
theorem eq_of_prefix_concat (hbody' : ∀ t ∈ body', t.kind ≠ .eof) (hlast : last.kind = .eof)
    (h : body ++ [last] <+: body' ++ [last']) : body = body' ∧ last = last' := by
  rcases List.prefix_concat_iff.mp h with h | h
  · exact List.append_inj' h rfl |>.imp_right List.head_eq_of_cons_eq
  · have hmem : last ∈ body' := h.subset (List.mem_append_right _ (List.mem_singleton_self last))
    exact absurd hlast (hbody' last hmem)

end Lists

/-! ## Places of cursors -/

section Places

variable {body : List Token} {last : Token} {c d : Token.Cursor}

/-- The place of a cursor in a list, counted from the front. -/
def Token.Cursor.place (c : Token.Cursor) (body : List Token) : Nat := body.length - c.rest.length

theorem Token.Cursor.After.eq_drop (h : (⟨body, last⟩ : Token.Cursor).After c) :
    c = ⟨body.drop (c.place body), last⟩ := by
  obtain ⟨rest, stop⟩ := c
  obtain ⟨hrest, rfl⟩ := h
  exact congrArg (Token.Cursor.mk · stop) (List.suffix_iff_eq_drop.mp hrest)

theorem getElem?_concat_eq_peek {p : Nat} (hp : p ≤ body.length) :
    (body ++ [last])[p]? = some (⟨body.drop p, last⟩ : Token.Cursor).peek := by
  rw [Token.Cursor.peek, Token.Cursor.peekAt, List.getElem?_drop, Nat.add_zero]
  rcases Nat.lt_or_eq_of_le hp with hlt | rfl
  · rw [List.getElem?_append_left hlt, List.getElem?_eq_getElem hlt, Option.getD_some]
  · rw [List.getElem?_concat_length, List.getElem?_eq_none (Nat.le_refl _), Option.getD_none]

/-- The token at a place is the same in lists that agree up to there. -/
theorem peek_eq_of_agree {body' : List Token} {last' : Token} {p : Nat} (hp : p ≤ body.length)
    (hagree : (body ++ [last]).take (p + 2) <+: body' ++ [last']) :
    (⟨body.drop p, last⟩ : Token.Cursor).peek = (⟨body'.drop p, last'⟩ : Token.Cursor).peek := by
  have hp' : p ≤ body'.length := by
    have hlength := hagree.length_le
    rw [List.length_take, List.length_append, List.length_append, List.length_singleton,
      List.length_singleton] at hlength
    omega
  obtain ⟨others, hothers⟩ := hagree
  have hsame : (body ++ [last])[p]? = (body' ++ [last'])[p]? := by
    have hlength : p < ((body ++ [last]).take (p + 2)).length := by
      rw [List.length_take, List.length_append, List.length_singleton]
      omega
    rw [← hothers, List.getElem?_append_left hlength]
    exact (List.getElem?_take_of_lt (Nat.lt_add_of_pos_right Nat.two_pos)).symm
  rw [getElem?_concat_eq_peek hp, getElem?_concat_eq_peek hp'] at hsame
  exact Option.some.inj hsame

theorem Token.Cursor.After.place_le (h : c.After d) : c.place body ≤ d.place body :=
  Nat.sub_le_sub_left h.rest.length_le _

end Places

/-! ## Scripts on lists that begin alike -/

theorem Shown.of_length {ts : List Token} (h : 2 ≤ ts.length) : Shown ts := by
  rcases ts with _ | ⟨t, _ | ⟨u, ts⟩⟩
  · exact absurd h (Nat.not_succ_le_zero 1)
  · exact absurd h (Nat.lt_irrefl 1)
  · exact trivial

namespace Script

variable {α : Type} {s : Script α} {body : List Token} {last : Token}

/-- A script looks from one place after another, and from none past the one at which it ends. -/
theorem exists_places (s : Script α) (body : List Token) (last : Token) :
    ∃ places : List Nat, s.visited ⟨body, last⟩ = places.map (fun i => ⟨body.drop i, last⟩)
      ∧ (places ++ [(s.walk ⟨body, last⟩).2.place body]).Pairwise (· ≤ ·) := by
  refine ⟨(s.visited ⟨body, last⟩).map (·.place body), ?_, ?_⟩
  · rw [List.map_map]
    refine (List.map_id _).symm.trans (List.map_congr_left fun d hd => ?_)
    exact (s.after_visited _ d hd).eq_drop
  · have hpairwise := s.pairwise_visited ⟨body, last⟩
    have hplaces := hpairwise.map (·.place body) fun c d h =>
      (h.place_le : c.place body ≤ d.place body)
    rwa [List.map_append] at hplaces

/-- A script that ends at a place ends there on all lists that agree up to the place after it. -/
theorem walk_of_agree {body' : List Token} {last' : Token} {ending : Ending α} {p : Nat}
    (h : s.walk ⟨body, last⟩ = (ending, ⟨body.drop p, last⟩)) (hp : p ≤ body.length)
    (hbody : ∀ t ∈ body, t.kind ≠ .eof) (hlast : last.kind = .eof)
    (hbody' : ∀ t ∈ body', t.kind ≠ .eof) (hlast' : last'.kind = .eof)
    (hagree : (body ++ [last]).take (p + 2) <+: body' ++ [last']) :
    s.walk ⟨body', last'⟩ = (ending, ⟨body'.drop p, last'⟩) := by
  by_cases hlength : p + 2 ≤ body.length
  · rw [List.take_append_of_le_length hlength] at hagree
    have hseen : ∀ t ∈ body.take (p + 2), t.kind ≠ .eof := fun t ht =>
      hbody t (List.mem_of_mem_take ht)
    obtain ⟨B, rfl⟩ := prefix_of_prefix_concat hseen hlast' hagree
    have hle : p ≤ (body.take (p + 2)).length := by
      rw [List.length_take]
      omega
    rw [← List.take_append_drop (p + 2) body, List.drop_append_of_le_length hle] at h
    rw [List.drop_append_of_le_length hle]
    refine walk_append h (Shown.of_length ?_)
    rw [List.length_drop, List.length_take]
    omega
  · rw [List.take_of_length_le (by simp; omega)] at hagree
    obtain ⟨rfl, rfl⟩ := eq_of_prefix_concat hbody' hlast hagree
    exact h

end Script

/-! ## Programs -/

namespace Program

variable {body : List Token} {last : Token}

theorem ofTokens_concat_eq_error_iff (hbody : ∀ t ∈ body, t.kind ≠ .eof)
    (hlast : last.kind = .eof) {e : Failure} :
    ofTokens (body ++ [last]) = .error e ↔ read.run ⟨body, last⟩ = .error e := by
  rw [ofTokens, Token.Cursor.ofTokens_append hbody hlast]
  cases read.run ⟨body, last⟩ with
  | ok pc => constructor <;> intro h <;> cases h
  | error e' =>
      constructor <;>
      · intro h
        cases h
        rfl

theorem exists_script_of_mismatch {n : Nat} (hn : body.length < n)
    (hbody : ∀ t ∈ body, t.kind ≠ .eof) (hlast : last.kind = .eof) {expected : Text}
    {c : Token.Cursor} (h : ofTokens (body ++ [last]) = .error (.mismatch expected c)) :
    ∃ s : Script Program,
      (∀ d : Token.Cursor, d.rest.length < n → d.stop.kind = .eof → read.run d = s.run d)
      ∧ s.walk ⟨body, last⟩ = (.mismatch expected, c) := by
  obtain ⟨s, hs⟩ := (Scripted.programRead (n := n)).exists_script
  refine ⟨s, hs, Script.walk_of_run_mismatch ?_⟩
  rw [← hs _ hn hlast]
  exact (ofTokens_concat_eq_error_iff hbody hlast).mp h

/-- **Errors are decided by a prefix.** Where a token list does not spell a program, reading fails
at the token of some place, and the failure has that token's position and names it. Every list that
agrees with it up to the place after that one, or is as short, fails there in the same way. Reading
does what a script does that looks from one place after another, none of them past the failure. -/
theorem ofTokens_mismatch_decided (hbody : ∀ t ∈ body, t.kind ≠ .eof) (hlast : last.kind = .eof)
    {expected : Text} {c : Token.Cursor}
    (h : ofTokens (body ++ [last]) = .error (.mismatch expected c)) :
    ∃ p t, c = ⟨body.drop p, last⟩ ∧ (body ++ [last])[p]? = some t
      ∧ (Failure.mismatch expected c).pos? = some t.pos
      ∧ (Failure.mismatch expected c).detail
        = "expected " ++ expected ++ ", found " ++ t.describe
      ∧ (∀ body' last', (∀ t ∈ body', t.kind ≠ .eof) → last'.kind = .eof →
          (body ++ [last]).take (p + 2) <+: body' ++ [last'] →
          ∃ c', ofTokens (body' ++ [last']) = .error (.mismatch expected c')
            ∧ c' = ⟨body'.drop p, last'⟩ ∧ c'.peek = t)
      ∧ ∃ s : Script Program,
          (∀ d : Token.Cursor, d.rest.length ≤ body.length → d.stop.kind = .eof →
            read.run d = s.run d)
          ∧ ∃ places : List Nat, s.visited ⟨body, last⟩ = places.map (fun i => ⟨body.drop i, last⟩)
            ∧ (places ++ [p]).Pairwise (· ≤ ·) := by
  obtain ⟨s, hs, hwalk⟩ :=
    exists_script_of_mismatch (Nat.lt_succ_self body.length) hbody hlast h
  have hplaces := s.exists_places body last
  have hafter := s.after_walk ⟨body, last⟩
  rw [hwalk] at hplaces hafter
  obtain ⟨p, hp, rfl, hlooks⟩ : ∃ p ≤ body.length, c = ⟨body.drop p, last⟩ ∧ ∃ places : List Nat,
      s.visited ⟨body, last⟩ = places.map (fun i => ⟨body.drop i, last⟩)
        ∧ (places ++ [p]).Pairwise (· ≤ ·) := ⟨_, Nat.sub_le .., hafter.eq_drop, hplaces⟩
  have hpeek : (body ++ [last])[p]? = some (⟨body.drop p, last⟩ : Token.Cursor).peek :=
    getElem?_concat_eq_peek hp
  refine ⟨p, _, rfl, hpeek, rfl, rfl, ?_, s, fun d hd => hs d (Nat.lt_succ_of_le hd), hlooks⟩
  intro body' last' hbody' hlast' hagree
  obtain ⟨s', hs', hwalk'⟩ :=
    exists_script_of_mismatch (n := body.length + body'.length + 1) (by omega) hbody hlast h
  have hother := Script.walk_of_agree hwalk' hp hbody hlast hbody' hlast' hagree
  refine ⟨_, (ofTokens_concat_eq_error_iff hbody' hlast').mpr ?_, rfl, ?_⟩
  · have hlength : body'.length < body.length + body'.length + 1 := by omega
    rw [hs' _ hlength hlast', Script.run_of_walk hother]
    rfl
  · exact (peek_eq_of_agree hp hagree).symm

/-- A block with an assignment that has no value: `begin x <- end;`. -/
def withoutValue : List Token :=
  [{ kind := .beginWord, text := "begin", lexeme := "begin" },
    { kind := .ident, text := "x", lexeme := "x", pos := ⟨1, 7⟩, offset := 6 },
    { kind := .assign, text := "<-", lexeme := "<-", pos := ⟨1, 9⟩, offset := 8 },
    { kind := .endWord, text := "end", lexeme := "end", pos := ⟨1, 12⟩, offset := 11 },
    { kind := .semicolon, text := ";", lexeme := ";", pos := ⟨1, 15⟩, offset := 14 }]

/-- With more after it, the block fails as it does alone. -/
theorem ofTokens_withoutValue :
    ∃ c c', ofTokens (withoutValue ++ [Token.mk .eof [] [] ⟨1, 16⟩ 15])
        = .error (.mismatch "expression" c)
      ∧ ofTokens (withoutValue ++ withoutValue ++ [Token.mk .eof [] [] ⟨1, 31⟩ 30])
        = .error (.mismatch "expression" c')
      ∧ c'.peek = c.peek := by
  have hkinds : ∀ t ∈ withoutValue, t.kind ≠ .eof := by decide
  have halone : ofTokens (withoutValue ++ [Token.mk .eof [] [] ⟨1, 16⟩ 15])
      = .error (.mismatch "expression" ⟨withoutValue.drop 3, Token.mk .eof [] [] ⟨1, 16⟩ 15⟩) := rfl
  obtain ⟨p, t, hc, ht, -, -, hagree, -⟩ := ofTokens_mismatch_decided hkinds rfl halone
  have hp : p = 3 := by
    have hlength := congrArg (·.rest.length) hc
    simp [withoutValue] at hlength
    omega
  subst hp
  obtain ⟨c', hc', -, hpeek⟩ := hagree (withoutValue ++ withoutValue)
    (Token.mk .eof [] [] ⟨1, 31⟩ 30) (List.forall_mem_append.mpr ⟨hkinds, hkinds⟩) rfl ⟨_, rfl⟩
  exact ⟨_, c', halone, hc', hpeek.trans (Option.some.inj ht).symm⟩

end Program

end PseudoCost
