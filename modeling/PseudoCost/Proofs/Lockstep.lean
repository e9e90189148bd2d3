import Mathlib.Data.List.Forall2
import Mathlib.Logic.Relator
import PseudoCost.Proofs.Forward

/-!
# Two readings in lockstep

The same reader on two token lists that are alike up to some place: what it gives on one side it
gives on the other. Beyond that place the lists go on differently (`Frame`): either the readings are
not followed any further once the first one has passed the place (a fence), or the first tokens
there are a statement that the two sides spell in different ways, and behind it they are alike again
(a hole).

`Twins` relates the two cursors, and `Matches` says that a successful reading on the left has a
matching one on the right, unless it has passed the fence. The rules below follow the readers step
by step; the loops and nested readings of either side are bounded by its own number of tokens.
-/

namespace PseudoCost

open Reading

/-! ## Tokens and frames -/

/-- Tokens that differ in where they stand only: the same word, on lines that correspond. -/
structure Token.Alike (lines : Int → Int → Prop) (t u : Token) : Prop where
  kind : u.kind = t.kind
  text : u.text = t.text
  lexeme : u.lexeme = t.lexeme
  line : lines t.pos.line u.pos.line

/-- Whether the given number of open brackets is closed again. -/
def Token.closes : Nat → List Token → Bool
  | 0, _ => true
  | _ + 1, [] => false
  | depth + 1, t :: ts =>
    match t.kind with
    | .lbracket => closes (depth + 2) ts
    | .rbracket => closes depth ts
    | _ => closes (depth + 1) ts

/-- Every bracket that is opened is closed again. -/
def Token.Balanced : List Token → Prop
  | [] => True
  | t :: ts => (t.kind = .lbracket → closes 1 ts = true) ∧ Balanced ts

/-- How the two lists go on where they are no longer alike. -/
inductive Edge (lines : Int → Int → Prop) (hole : Prop) : List Token → List Token → Prop
  /-- With a conditional that the two sides spell differently. -/
  | conditional {t u : Token} {ts us : List Token} (hhole : hole) (halike : t.Alike lines u)
      (hkind : t.kind = .ifWord) : Edge lines hole (t :: ts) (u :: us)
  /-- With the same closing word. -/
  | closing {t u : Token} {ts us : List Token} (hfence : ¬ hole) (halike : t.Alike lines u)
      (hkind : t.kind = .thenWord ∨ t.kind = .elseWord ∨ t.kind = .endWord) :
      Edge lines hole (t :: ts) (u :: us)
  /-- With `else` on the left and `end` on the right. -/
  | elseEnd {t u : Token} {ts us : List Token} (hfence : ¬ hole) (hleft : t.kind = .elseWord)
      (hright : u.kind = .endWord) : Edge lines hole (t :: ts) (u :: us)

/-- Two token lists from the place on where they are no longer alike, and which lines of theirs
correspond. -/
structure Frame where
  lines : Int → Int → Prop
  lines_unique : Relator.BiUnique lines
  left : List Token
  right : List Token
  /-- Whether the readings are followed past that place. -/
  hole : Prop
  edge : Edge lines hole left right

variable {F : Frame}

/-- A cursor that has passed the fence. -/
def Frame.Dead (F : Frame) (c : Token.Cursor) : Prop := ¬ F.hole ∧ c.rest.length < F.left.length

/-- Cursors at corresponding places. -/
inductive Twins (F : Frame) (c d : Token.Cursor) : Prop
  | before {ts us : List Token} (hstop : c.stop.kind = .eof ∧ d.stop.kind = .eof)
      (halike : List.Forall₂ (Token.Alike F.lines) ts us) (hleft : c.rest = ts ++ F.left)
      (hright : d.rest = us ++ F.right) (hbalanced : F.hole → Token.Balanced ts)
  | past (hstop : c.stop.kind = .eof ∧ d.stop.kind = .eof) (hhole : F.hole)
      (halike : List.Forall₂ (Token.Alike F.lines) c.rest d.rest)

namespace Twins

variable {c d : Token.Cursor}

theorem stops (h : Twins F c d) : c.stop.kind = .eof ∧ d.stop.kind = .eof := by
  cases h <;> assumption

/-- Everything the tokens in front can be: alike, the end on both sides, or the edge between `else`
and `end`. -/
theorem look (h : Twins F c d) :
    c.peek.Alike F.lines d.peek ∨ (c.kind = .eof ∧ d.kind = .eof)
      ∨ (c.kind = .elseWord ∧ d.kind = .endWord ∧ F.Dead c.advance) := by
  obtain ⟨ctokens, cstop⟩ := c
  obtain ⟨dtokens, dstop⟩ := d
  cases h with
  | before hstop halike hleft hright hbalanced =>
      cases halike with
      | cons hfirst _ =>
          cases hleft
          cases hright
          exact .inl hfirst
      | nil =>
          obtain ⟨lines, unique, left, right, hole, edge⟩ := F
          cases hleft
          cases hright
          cases edge with
          | conditional _ hfirst _ => exact .inl hfirst
          | closing _ hfirst _ => exact .inl hfirst
          | elseEnd hfence hl hr =>
              exact .inr (.inr ⟨hl, hr, hfence, by simp [Token.Cursor.advance]⟩)
  | past hstop _ halike =>
      cases halike with
      | cons hfirst _ => exact .inl hfirst
      | nil => exact .inr (.inl hstop)

/-- Everything that taking the tokens in front can do: on both sides alike, past a fence, or into a
hole. -/
theorem step (h : Twins F c d) (hne : c.kind ≠ .eof) :
    (c.peek.Alike F.lines d.peek ∧ Twins F c.advance d.advance)
      ∨ (F.Dead c.advance ∧ (c.kind = .thenWord ∨ c.kind = .elseWord ∨ c.kind = .endWord))
      ∨ (F.hole ∧ c.kind = .ifWord ∧ c.rest = F.left ∧ d.rest = F.right) := by
  obtain ⟨ctokens, cstop⟩ := c
  obtain ⟨dtokens, dstop⟩ := d
  cases h with
  | before hstop halike hleft hright hbalanced =>
      cases halike with
      | cons hfirst hrest =>
          cases hleft
          cases hright
          exact .inl ⟨hfirst, .before hstop hrest rfl rfl fun hhole => (hbalanced hhole).2⟩
      | nil =>
          obtain ⟨lines, unique, left, right, hole, edge⟩ := F
          cases hleft
          cases hright
          cases edge with
          | conditional hhole _ hkind => exact .inr (.inr ⟨hhole, hkind, rfl, rfl⟩)
          | closing hfence _ hkind =>
              exact .inr (.inl ⟨⟨hfence, by simp [Token.Cursor.advance]⟩, hkind⟩)
          | elseEnd hfence hl _ =>
              exact .inr (.inl ⟨⟨hfence, by simp [Token.Cursor.advance]⟩, .inr (.inl hl)⟩)
  | past hstop hhole halike =>
      cases halike with
      | cons hfirst hrest => exact .inl ⟨hfirst, .past hstop hhole hrest⟩
      | nil => exact absurd hstop.1 hne

end Twins

/-- The kinds of tokens at which two lists may stop being alike. -/
def isEdge : Token.Kind → Bool
  | .eof | .ifWord | .thenWord | .elseWord | .endWord => true
  | _ => false

namespace Twins

variable {c d : Token.Cursor}

theorem advance (h : Twins F c d) (hk : isEdge c.kind = false) :
    c.peek.Alike F.lines d.peek ∧ Twins F c.advance d.advance := by
  have hne : c.kind ≠ .eof := by
    intro heq
    rw [heq] at hk
    cases hk
  obtain hstep | ⟨-, heq | heq | heq⟩ | ⟨-, heq, -⟩ := h.step hne
  · exact hstep
  all_goals
    rw [heq] at hk
    cases hk

/-- Only `else` can face another word. -/
theorem kind_eq_of_ne (h : Twins F c d) (hne : c.kind ≠ .elseWord) : d.kind = c.kind := by
  obtain halike | ⟨hc, hd⟩ | ⟨hc, -⟩ := h.look
  · exact halike.kind
  · rw [hc, hd]
  · exact absurd hc hne

/-- What is the same for `else` and `end` is the same for the kinds in front. -/
theorem lookup {α : Type} {f : Token.Kind → α} (h : Twins F c d) (hf : f .elseWord = f .endWord) :
    f d.kind = f c.kind := by
  obtain halike | ⟨hc, hd⟩ | ⟨hc, hd, -⟩ := h.look
  · rw [show d.kind = c.kind from halike.kind]
  · rw [hc, hd]
  · rw [hc, hd, hf]

theorem kind_iff_of_ne (h : Twins F c d) {k : Token.Kind} (hk : k ≠ .elseWord ∧ k ≠ .endWord) :
    d.kind = k ↔ c.kind = k := by
  have hf : decide (Token.Kind.elseWord = k) = decide (Token.Kind.endWord = k) := by
    rw [decide_eq_false hk.1.symm, decide_eq_false hk.2.symm]
  simpa using h.lookup (f := fun k' => decide (k' = k)) hf

/-- A kind that is no edge is in front on both sides or on neither. -/
theorem kind_iff (h : Twins F c d) {k : Token.Kind} (hk : isEdge k = false) :
    d.kind = k ↔ c.kind = k := by
  refine h.kind_iff_of_ne ⟨?_, ?_⟩ <;> rintro rfl <;> cases hk

end Twins

/-! ## Matching readings -/

/-- What the reader on the left gives from its cursor, the reader on the right gives from its own,
unless the first has passed the fence. -/
def Matches (F : Frame) {α β : Type} (V : α → β → Prop) (r : Reading α) (r' : Reading β)
    (c d : Token.Cursor) : Prop :=
  ∀ a c', r.run c = .ok (a, c') →
    F.Dead c' ∨ ∃ a' d', r'.run d = .ok (a', d') ∧ V a a' ∧ Twins F c' d'

/-- Readers that match from all twins with fewer tokens than the given numbers. -/
def Lockstep (F : Frame) {α β : Type} (V : α → β → Prop) (K L : Nat) (r : Reading α)
    (r' : Reading β) : Prop :=
  ∀ c d, Twins F c d → c.rest.length < K → d.rest.length < L → Matches F V r r' c d

theorem Frame.Dead.of_le {c c' : Token.Cursor} (h : F.Dead c)
    (hle : c'.rest.length ≤ c.rest.length) : F.Dead c' :=
  ⟨h.1, Nat.lt_of_le_of_lt hle h.2⟩

section Rules

variable {α α' β β' : Type} {V : α → α' → Prop} {W : β → β' → Prop} {r : Reading α}
  {r' : Reading α'} {f : α → Reading β} {f' : α' → Reading β'} {c d : Token.Cursor}

namespace Matches

theorem of_ok {a : α} {a' : α'} {c₁ d₁ : Token.Cursor} (hleft : r.run c = .ok (a, c₁))
    (hright : r'.run d = .ok (a', d₁)) (h : Twins F c₁ d₁) (hV : V a a') :
    Matches F V r r' c d := by
  intro b c' hrun
  rw [hleft] at hrun
  cases hrun
  exact .inr ⟨a', d₁, hright, hV, h⟩

theorem pure {a : α} {a' : α'} (h : Twins F c d) (hV : V a a') :
    Matches F V (Pure.pure a) (Pure.pure a') c d := of_ok rfl rfl h hV

/-- A reading that fails has nothing to match. -/
theorem of_error {e : Failure} (h : r.run c = .error e) : Matches F V r r' c d := by
  intro a c' hrun
  rw [h] at hrun
  cases hrun

theorem fail {expected : Text} : Matches F V (Reading.fail expected) r' c d := of_error rfl

/-- Past the fence nothing is asked for. -/
theorem of_dead [hr : Forward r] (h : F.Dead c) : Matches F V r r' c d := fun _ _ hrun =>
  .inl (h.of_le (hr.length_le hrun))

theorem take_of_dead {f : Token → Reading β} {s : Reading β'} [∀ t, Forward (f t)]
    (h : F.Dead c.advance) : Matches F W (take >>= f) s c d :=
  of_dead (r := f c.peek) (c := c.advance) h

/-- One reading after another: the second ones start where the first ones have stopped. -/
theorem bind_run [∀ a, Forward (f a)] (hmatch : Matches F V r r' c d)
    (hnext : ∀ a a' c₁ d₁, V a a' → Twins F c₁ d₁ → r.run c = .ok (a, c₁) →
      r'.run d = .ok (a', d₁) → Matches F W (f a) (f' a') c₁ d₁) :
    Matches F W (r >>= f) (r' >>= f') c d := by
  intro b c' hrun
  obtain ⟨a, c₁, hleft, hrest⟩ := exists_of_run_bind hrun
  obtain hdead | ⟨a', d₁, hright, hV, htwins⟩ := hmatch a c₁ hleft
  · exact .inl (hdead.of_le (Forward.length_le hrest))
  · rw [run_bind_ok hright]
    exact hnext a a' c₁ d₁ hV htwins hleft hright b c' hrest

theorem bind [hr : Forward r] [hr' : Forward r'] [∀ a, Forward (f a)]
    (hmatch : Matches F V r r' c d)
    (hnext : ∀ a a' c₁ d₁, V a a' → Twins F c₁ d₁ → c₁.rest.length ≤ c.rest.length →
      d₁.rest.length ≤ d.rest.length → Matches F W (f a) (f' a') c₁ d₁) :
    Matches F W (r >>= f) (r' >>= f') c d :=
  hmatch.bind_run fun a a' c₁ d₁ hV h₁ hleft hright =>
    hnext a a' c₁ d₁ hV h₁ (hr.length_le hleft) (hr'.length_le hright)

/-- As `bind`, for readers that take a token. -/
theorem bind_lt [hr : Consumes r] [hr' : Consumes r'] [∀ a, Forward (f a)] (h : Twins F c d)
    (hmatch : Matches F V r r' c d)
    (hnext : ∀ a a' c₁ d₁, V a a' → Twins F c₁ d₁ → c₁.rest.length < c.rest.length →
      d₁.rest.length < d.rest.length → Matches F W (f a) (f' a') c₁ d₁) :
    Matches F W (r >>= f) (r' >>= f') c d :=
  hmatch.bind_run fun a a' c₁ d₁ hV h₁ hleft hright =>
    hnext a a' c₁ d₁ hV h₁ (hr.length_lt h.stops.1 hleft) (hr'.length_lt h.stops.2 hright)

end Matches

/-- What matters of a reader is what it gives. -/
theorem matches_congr {s : Reading α} {s' : Reading α'} {c₁ d₁ : Token.Cursor}
    (hleft : r.run c = s.run c₁) (hright : r'.run d = s'.run d₁) :
    Matches F V r r' c d ↔ Matches F V s s' c₁ d₁ := by
  rw [Matches, Matches, hleft, hright]

/-! ## Primitive readers in front -/

@[simp] theorem matches_kind {f : Token.Kind → Reading β} {f' : Token.Kind → Reading β'} :
    Matches F W (kind >>= f) (kind >>= f') c d ↔ Matches F W (f c.kind) (f' d.kind) c d :=
  matches_congr rfl rfl

@[simp] theorem matches_nextKind {f : Token.Kind → Reading β} {f' : Token.Kind → Reading β'} :
    Matches F W (nextKind >>= f) (nextKind >>= f') c d
      ↔ Matches F W (f c.nextKind) (f' d.nextKind) c d := matches_congr rfl rfl

@[simp] theorem matches_peek {f : Token → Reading β} {f' : Token → Reading β'} :
    Matches F W (peek >>= f) (peek >>= f') c d ↔ Matches F W (f c.peek) (f' d.peek) c d :=
  matches_congr rfl rfl

@[simp] theorem matches_here {f : Pos → Reading β} {f' : Pos → Reading β'} :
    Matches F W (Stmt.here >>= f) (Stmt.here >>= f') c d
      ↔ Matches F W (f c.peek.pos) (f' d.peek.pos) c d := matches_congr rfl rfl

@[simp] theorem matches_remaining {f : Nat → Reading β} {f' : Nat → Reading β'} :
    Matches F W (remaining >>= f) (remaining >>= f') c d
      ↔ Matches F W (f c.rest.length) (f' d.rest.length) c d := matches_congr rfl rfl

@[simp] theorem matches_take {f : Token → Reading β} {f' : Token → Reading β'} :
    Matches F W (take >>= f) (take >>= f') c d
      ↔ Matches F W (f c.peek) (f' d.peek) c.advance d.advance := matches_congr rfl rfl

theorem matches_skipAll {kinds : List Token.Kind} (hkinds : .eof ∉ kinds) (h : Twins F c d)
    {f : Unit → Reading β} {f' : Unit → Reading β'} :
    Matches F W (skipAll kinds >>= f) (skipAll kinds >>= f') c d
      ↔ Matches F W (f ()) (f' ()) (c.skipAll kinds) (d.skipAll kinds) :=
  matches_congr (run_bind_ok (run_skipAll hkinds h.stops.1))
    (run_bind_ok (run_skipAll hkinds h.stops.2))

@[simp] theorem matches_pure_bind {a : α} {a' : α'} :
    Matches F W (pure a >>= f) (pure a' >>= f') c d ↔ Matches F W (f a) (f' a') c d :=
  matches_congr rfl rfl

/-! ## Taking a token -/

/-- The tokens in front were alike and have been taken. -/
structure Taken (F : Frame) (c d : Token.Cursor) : Prop where
  alike : c.peek.Alike F.lines d.peek
  twins : Twins F c.advance d.advance
  left_lt : c.advance.rest.length < c.rest.length
  right_lt : d.advance.rest.length < d.rest.length

theorem Twins.taken_of_alike (h : Twins F c d) (hne : c.kind ≠ .eof)
    (halike : c.peek.Alike F.lines d.peek) (htwins : Twins F c.advance d.advance) :
    Taken F c d where
  alike := halike
  twins := htwins
  left_lt := Token.Cursor.length_advance_lt h.stops.1 hne
  right_lt :=
    Token.Cursor.length_advance_lt h.stops.2 (by rwa [show d.kind = c.kind from halike.kind])

theorem Twins.taken (h : Twins F c d) (hk : isEdge c.kind = false) : Taken F c d := by
  obtain ⟨halike, htwins⟩ := h.advance hk
  refine h.taken_of_alike (fun heq => ?_) halike htwins
  rw [heq] at hk
  cases hk

theorem Token.Cursor.length_skipAll (c : Token.Cursor) (kinds : List Token.Kind) :
    (c.skipAll kinds).rest.length ≤ c.rest.length := (List.dropWhile_sublist _).length_le

/-- Tokens of kinds that are no edges are skipped on both sides. -/
theorem Twins.skipAll {kinds : List Token.Kind} (hkinds : ∀ k ∈ kinds, isEdge k = false)
    (h : Twins F c d) : Twins F (c.skipAll kinds) (d.skipAll kinds) := by
  induction hlength : c.rest.length using Nat.strongRecOn generalizing c d with
  | _ length ih =>
      by_cases hc : c.kind ∈ kinds
      · have htaken := h.taken (hkinds _ hc)
        have hd : d.kind ∈ kinds := by rwa [show d.kind = c.kind from htaken.alike.kind]
        rw [Token.Cursor.skipAll_of_mem hc, Token.Cursor.skipAll_of_mem hd]
        exact ih _ (hlength ▸ htaken.left_lt) htaken.twins rfl
      · have hd : d.kind ∉ kinds := by
          intro hd
          rw [(h.kind_iff (hkinds _ hd)).mp rfl] at hc
          exact hc hd
        rwa [Token.Cursor.skipAll_of_not_mem hc, Token.Cursor.skipAll_of_not_mem hd]

namespace Matches

/-- A token of a kind that is no edge is taken on both sides or on neither. -/
theorem accept {k : Token.Kind} {f : Bool → Reading β} {f' : Bool → Reading β'}
    (h : Twins F c d) (hk : isEdge k = false)
    (htrue : c.kind = k → Taken F c d → Matches F W (f true) (f' true) c.advance d.advance)
    (hfalse : c.kind ≠ k → Matches F W (f false) (f' false) c d) :
    Matches F W (accept k >>= f) (accept k >>= f') c d := by
  by_cases hc : c.kind = k
  · have hd : d.kind = k := (h.kind_iff hk).mpr hc
    rw [matches_congr (run_bind_ok (run_accept hc)) (run_bind_ok (run_accept hd))]
    exact htrue hc (h.taken (hc ▸ hk))
  · have hd : d.kind ≠ k := fun hd => hc ((h.kind_iff hk).mp hd)
    rw [matches_congr (run_bind_ok (run_accept_of_ne hc)) (run_bind_ok (run_accept_of_ne hd))]
    exact hfalse hc

/-- A token that must have a certain kind is taken on both sides, or has been the fence. -/
theorem expect {k : Token.Kind} {expected : Text} {f : Token → Reading β} {f' : Token → Reading β'}
    [∀ t, Forward (f t)] (h : Twins F c d) (hk : k ≠ .eof ∧ k ≠ .ifWord)
    (hnext : c.kind = k → Taken F c d → Matches F W (f c.peek) (f' d.peek) c.advance d.advance) :
    Matches F W (expect k expected >>= f) (expect k expected >>= f') c d := by
  by_cases hc : c.kind = k
  · have hne : c.kind ≠ .eof := hc ▸ hk.1
    have hexpect : (Reading.expect k expected).run c = .ok (c.peek, c.advance) := run_expect hc
    have hrun := run_bind_ok (f := f) hexpect
    obtain ⟨halike, htwins⟩ | ⟨hdead, -⟩ | ⟨-, hif, -⟩ := h.step hne
    · have hd : d.kind = k := halike.kind.trans hc
      rw [matches_congr hrun (run_bind_ok (run_expect hd))]
      exact hnext hc (h.taken_of_alike hne halike htwins)
    · rw [matches_congr hrun rfl]
      exact of_dead hdead
    · exact absurd (hc.symm.trans hif) hk.2
  · have hexpect : (Reading.expect k expected).run c = .error (.mismatch expected c) := by
      rw [Reading.expect, run_bind_ok (rfl : kind.run c = .ok (c.kind, c)), if_neg hc]
      rfl
    exact of_error (e := .mismatch expected c) (by rw [StateT.run_bind, hexpect]; rfl)

end Matches

/-! ## Lists of items -/

theorem run_moreItems_of_ne {item : Reading α} (n : Nat) (h : c.kind ≠ .comma) :
    (moreItems item (n + 1)).run c = .ok ([], c) := by
  rw [moreItems, run_bind_ok (run_accept_of_ne h)]
  rfl

theorem Lockstep.moreItems {K L : Nat} {item : Reading α} {item' : Reading α'} [Forward item]
    [Forward item'] (hitem : Lockstep F V K L item item') {n m : Nat} (h : Twins F c d)
    (hK : c.rest.length < K) (hL : d.rest.length < L) (hn : c.rest.length < n)
    (hm : d.rest.length < m) :
    Matches F (List.Forall₂ V) (moreItems item n) (moreItems item' m) c d := by
  -- The induction is on the tokens left; neither bound is ever used up.
  induction hlength : c.rest.length using Nat.strongRecOn generalizing n m c d with
  | _ length ih =>
      obtain ⟨n, rfl⟩ : ∃ n', n = n' + 1 := ⟨n - 1, by omega⟩
      obtain ⟨m, rfl⟩ : ∃ m', m = m' + 1 := ⟨m - 1, by omega⟩
      by_cases hc : c.kind = .comma
      · have htaken := h.taken (by rw [hc]; rfl)
        have hleft := htaken.left_lt
        have hright := htaken.right_lt
        rw [Reading.moreItems, Reading.moreItems]
        refine .accept h rfl (fun _ _ => ?_) fun hne => absurd hc hne
        simp only [if_true]
        refine (hitem _ _ htaken.twins (by omega) (by omega)).bind
          fun x x' c₁ d₁ hx h₁ hc₁ hd₁ => ?_
        refine (ih _ (by omega) h₁ (by omega) (by omega) (by omega) (by omega) rfl).bind
          fun xs xs' c₂ d₂ hxs h₂ _ _ => ?_
        exact .pure h₂ (.cons hx hxs)
      · have hd : d.kind ≠ .comma := mt (h.kind_iff rfl).mp hc
        exact .of_ok (run_moreItems_of_ne n hc) (run_moreItems_of_ne m hd) h .nil

theorem Lockstep.items {K L : Nat} {item : Reading α} {item' : Reading α'} [Forward item]
    [Forward item'] (hitem : Lockstep F V K L item item') :
    Lockstep F (List.Forall₂ V) K L (items item) (items item') := by
  intro c d h hK hL
  rw [Reading.items, Reading.items]
  refine (hitem c d h hK hL).bind fun x x' c₁ d₁ hx h₁ hc₁ hd₁ => ?_
  rw [matches_remaining]
  refine (hitem.moreItems h₁ (by omega) (by omega) (Nat.lt_succ_self _) (Nat.lt_succ_self _)).bind
    fun xs xs' c₂ d₂ hxs h₂ _ _ => ?_
  exact .pure h₂ (.cons hx hxs)

theorem Lockstep.of_eq_zero {K L : Nat} (h : K = 0 ∨ L = 0) : Lockstep F V K L r r' := by
  intro c d _ hc hd
  omega

end Rules

end PseudoCost
