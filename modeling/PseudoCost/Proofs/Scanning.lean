import PseudoCost.Proofs.Tiling

/-!
# Scanning without a bound

The bound on the pieces of a scan is never used up, since every piece takes a glyph. So a scan can
be read as what it does: cut the piece in front, then scan what is left (`scanAll_cons`). Inductions
over a scan go by the number of glyphs left.

Where the text stands matters only to the positions that are reported: a scan that starts further
down and further on finds the same tokens, or the same error, further down and further on
(`scanAll_moved`).
-/

namespace PseudoCost.Token

variable {a : Alphabet}

/-! ## Scans -/

theorem length_rest_lt {pos : Pos} {g : Glyph} {gs : List Glyph} {p : Piece}
    (h : piece a pos g gs = .ok p) : p.rest.length < (g :: gs).length := by
  have hcut := piece_cutFrom h
  have htaken := List.length_pos_iff.mpr hcut.taken_ne_nil
  rw [hcut.split, List.length_append]
  omega

/-- The token of a piece, if it gives one. -/
def Piece.tokens (p : Piece) (place : Place) : List Token :=
  match p.token? with
  | some (kind, text) => [⟨kind, text, Glyph.text p.taken, place.pos, place.offset⟩]
  | none => []

theorem scanFrom_succ (fuel : Nat) (place : Place) (g : Glyph) (gs : List Glyph) :
    scanFrom a (fuel + 1) place (g :: gs)
      = (piece a place.pos g gs).bind fun p =>
          (scanFrom a fuel (place.afterAll p.taken) p.rest).map (p.tokens place ++ ·) := by
  rw [scanFrom]
  cases piece a place.pos g gs with
  | error e => rfl
  | ok p =>
      change (scanFrom a fuel (place.afterAll p.taken) p.rest).bind _ = Except.map _ _
      cases scanFrom a fuel (place.afterAll p.taken) p.rest with
      | error e => rfl
      | ok more =>
          obtain ⟨_ | ⟨kind, text⟩, taken, rest⟩ := p <;> rfl

theorem scanFrom_congr {k m : Nat} {place : Place} {gs : List Glyph} (hk : gs.length ≤ k)
    (hm : gs.length ≤ m) : scanFrom a k place gs = scanFrom a m place gs := by
  induction k generalizing m place gs with
  | zero =>
      obtain rfl : gs = [] := List.length_eq_zero_iff.mp (Nat.le_zero.mp hk)
      cases m <;> rfl
  | succ k ih =>
      cases gs with
      | nil => cases m <;> rfl
      | cons g gs =>
          obtain ⟨m, rfl⟩ : ∃ m', m = m' + 1 := ⟨m - 1, by simp at hm; omega⟩
          rw [scanFrom_succ, scanFrom_succ]
          cases hpiece : piece a place.pos g gs with
          | error e => rfl
          | ok p =>
              have hlt := length_rest_lt hpiece
              exact congrArg (Except.map _) (ih (by omega) (by omega))

/-- The tokens of some glyphs that start at a place. -/
def scanAll (a : Alphabet) (place : Place) (gs : List Glyph) : Except Error (List Token) :=
  scanFrom a gs.length place gs

theorem scanIn_eq (source : Text) : scanIn a source = scanAll a {} (a.composed source).glyphs := rfl

@[simp] theorem scanAll_nil (place : Place) :
    scanAll a place [] = .ok [⟨.eof, [], [], place.pos, place.offset⟩] := rfl

/-- A scan cuts the piece in front and goes on behind it. -/
theorem scanAll_cons (place : Place) (g : Glyph) (gs : List Glyph) :
    scanAll a place (g :: gs)
      = (piece a place.pos g gs).bind fun p =>
          (scanAll a (place.afterAll p.taken) p.rest).map (p.tokens place ++ ·) := by
  rw [scanAll, List.length_cons, scanFrom_succ]
  cases hpiece : piece a place.pos g gs with
  | error e => rfl
  | ok p =>
      have hlt := length_rest_lt hpiece
      exact congrArg (Except.map _) (scanFrom_congr (Nat.le_of_lt_succ hlt) (Nat.le_refl _))

theorem exists_of_scanAll_cons {place : Place} {g : Glyph} {gs : List Glyph} {ts : List Token}
    (h : scanAll a place (g :: gs) = .ok ts) :
    ∃ p more, piece a place.pos g gs = .ok p
      ∧ scanAll a (place.afterAll p.taken) p.rest = .ok more ∧ ts = p.tokens place ++ more := by
  rw [scanAll_cons] at h
  cases hpiece : piece a place.pos g gs with
  | error e => rw [hpiece] at h; cases h
  | ok p =>
      rw [hpiece] at h
      cases hmore : scanAll a (place.afterAll p.taken) p.rest with
      | error e => rw [Except.bind, hmore] at h; cases h
      | ok more =>
          rw [Except.bind, hmore] at h
          cases h
          exact ⟨p, more, rfl, hmore, rfl⟩

/-- The tokens of a scan are those of pieces, and one for the end. -/
theorem exists_pieces_of_scanAll {place : Place} {gs : List Glyph} {ts : List Token}
    (h : scanAll a place gs = .ok ts) :
    ∃ body last, ts = body ++ [last] ∧ last.kind = .eof ∧ last.text = []
      ∧ ∀ t ∈ body, ∃ pos g rest p, g :: rest <:+ gs ∧ piece a pos g rest = .ok p
        ∧ p.token? = some (t.kind, t.text) := by
  induction hlength : gs.length using Nat.strongRecOn generalizing place gs ts with
  | _ length ih =>
      cases gs with
      | nil =>
          cases h
          exact ⟨[], _, rfl, rfl, rfl, by simp⟩
      | cons g gs =>
          obtain ⟨p, more, hpiece, hmore, rfl⟩ := exists_of_scanAll_cons h
          obtain ⟨body, last, rfl, hlast, htext, hbody⟩ :=
            ih _ (hlength ▸ length_rest_lt hpiece) hmore rfl
          have hsuffix : p.rest <:+ g :: gs := ⟨p.taken, (piece_cutFrom hpiece).split.symm⟩
          refine ⟨p.tokens place ++ body, last, (List.append_assoc ..).symm, hlast, htext, ?_⟩
          refine List.forall_mem_append.mpr ⟨fun t ht => ?_, fun t ht => ?_⟩
          · rw [Piece.tokens] at ht
            split at ht
            next kind text htoken =>
              rw [List.mem_singleton.mp ht]
              exact ⟨_, g, gs, p, List.suffix_refl _, hpiece, htoken⟩
            next => cases ht
          · obtain ⟨pos, h, rest, q, hrest, hq, htoken⟩ := hbody t ht
            exact ⟨pos, h, rest, q, hrest.trans hsuffix, hq, htoken⟩

/-! ## Moving a text -/

/-- The place some lines further down and some bytes further on. -/
def Place.moved (lines bytes : Nat) (p : Place) : Place :=
  ⟨⟨p.pos.line + lines, p.pos.col⟩, p.offset + bytes⟩

/-- The token some lines further down and some bytes further on. -/
def moved (lines bytes : Nat) (t : Token) : Token :=
  { t with pos := ⟨t.pos.line + lines, t.pos.col⟩, offset := t.offset + bytes }

/-- The error some lines further down. -/
def Error.moved (lines : Nat) : Error → Error
  | .invalidByte pos byte => .invalidByte ⟨pos.line + lines, pos.col⟩ byte
  | .unterminatedString pos => .unterminatedString ⟨pos.line + lines, pos.col⟩
  | .unrecognized pos c => .unrecognized ⟨pos.line + lines, pos.col⟩ c

section Moved

variable (lines bytes : Nat) (place : Place) (g : Glyph) (gs : List Glyph)

theorem after_moved : (place.moved lines bytes).after g = (place.after g).moved lines bytes := by
  simp only [Place.after, Place.moved]
  split <;> simp <;> omega

theorem afterAll_moved :
    (place.moved lines bytes).afterAll gs = (place.afterAll gs).moved lines bytes := by
  induction gs generalizing place with
  | nil => rfl
  | cons g gs ih =>
      change ((place.moved lines bytes).after g).afterAll gs = _
      rw [after_moved, ih]
      rfl

theorem tokens_moved (p : Piece) :
    p.tokens (place.moved lines bytes) = (p.tokens place).map (Token.moved lines bytes) := by
  obtain ⟨_ | ⟨kind, text⟩, taken, rest⟩ := p <;> rfl

theorem string_moved : string (place.moved lines bytes).pos g gs
    = (string place.pos g gs).mapError (Error.moved lines) := by
  simp only [string]
  split
  · split <;> rfl
  · rfl

theorem operator_moved (c : Char) : operator (place.moved lines bytes).pos c g gs
    = (operator place.pos c g gs).mapError (Error.moved lines) := by
  -- A character on its own is read in two branches of the reader, with and without a next glyph.
  simp only [operator]
  cases singles.lookup c <;>
  · split
    · split <;> rfl
    · rfl

/-- A piece depends on its place in what an error says only. -/
theorem piece_moved : piece a (place.moved lines bytes).pos g gs
    = (piece a place.pos g gs).mapError (Error.moved lines) := by
  rw [piece, piece]
  split
  · rfl
  split
  · rfl
  split
  · rfl
  split
  · rfl
  split
  · rfl
  split
  · exact string_moved lines bytes place g gs
  · exact operator_moved lines bytes place g gs _

theorem scanAll_moved : scanAll a (place.moved lines bytes) gs
    = ((scanAll a place gs).mapError (Error.moved lines)).map
        (List.map (Token.moved lines bytes)) := by
  induction hlength : gs.length using Nat.strongRecOn generalizing place gs with
  | _ length ih =>
      cases gs with
      | nil => rfl
      | cons g gs =>
          rw [scanAll_cons, scanAll_cons, piece_moved]
          cases hpiece : piece a place.pos g gs with
          | error e => rfl
          | ok p =>
              have hlt := hlength ▸ length_rest_lt hpiece
              have hrest := ih _ hlt (place.afterAll p.taken) p.rest rfl
              simp only [Except.mapError, Except.bind, afterAll_moved, hrest, tokens_moved]
              cases scanAll a (place.afterAll p.taken) p.rest with
              | error e => rfl
              | ok more => exact congrArg Except.ok List.map_append.symm

end Moved

end PseudoCost.Token
