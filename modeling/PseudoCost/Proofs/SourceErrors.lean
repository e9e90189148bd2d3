import PseudoCost.Analysis
import PseudoCost.Proofs.ReadingFailures
import PseudoCost.Proofs.Tiling

/-!
# Why a source cannot be read

A source that cannot be read has a place at fault: the glyph at which no token starts, or the token
that was not expected. The one exception is a number token whose value double precision cannot hold
(`Analysis.read_outcome`). That it cannot be any other number token is a fact about the bytes: a
number token starts with the byte of a digit, since no glyph of several bytes is a digit, and a text
that starts with a digit starts with a number.
-/

namespace PseudoCost

/-! ## Digits -/

namespace Glyph

theorem ofNat_isDigit {n : Nat} (h : (Char.ofNat n).isDigit = true) : 48 ≤ n ∧ n ≤ 57 := by
  have hcode : 48 ≤ (Char.ofNat n).toNat ∧ (Char.ofNat n).toNat ≤ 57 := by
    simpa [Char.isDigit, UInt32.le_iff_toNat_le] using h
  by_cases hvalid : n.isValidChar
  · rwa [Char.ofNat, dif_pos hvalid] at hcode
  · rw [Char.ofNat, dif_neg hvalid] at hcode
    exact absurd hcode.1 (by decide)

/-- The glyph is no digit, or one byte that is a digit. -/
def Plain (g : Glyph) : Prop :=
  Token.isDigit g = true → ∃ b, Text.isDigit b = true ∧ g.bytes = [b]

theorem plain_illFormed (bytes : Text) : (illFormed bytes).Plain := fun h => by cases h

theorem Step.first_plain (b : UInt8) : ∀ g ∈ (Step.first b).done, g.Plain := by
  intro g hg
  obtain ⟨-, heq⟩ | ⟨-, heq⟩ | ⟨p, -, -, heq⟩ := Step.first_cases b
  · rw [heq] at hg
    rw [List.mem_singleton.mp hg]
    intro hdigit
    obtain ⟨hlow, hhigh⟩ := ofNat_isDigit hdigit
    exact ⟨b, by simpa [Text.isDigit, UInt8.le_iff_toNat_le] using ⟨hlow, hhigh⟩, rfl⟩
  · rw [heq] at hg
    rw [List.mem_singleton.mp hg]
    exact plain_illFormed _
  · rw [heq] at hg
    cases hg

theorem Step.take_plain {open? : Option Partial} (hopen : Sound open?) (b : UInt8) :
    ∀ g ∈ (Step.take open? b).done, g.Plain := by
  cases open? with
  | none => exact Step.first_plain b
  | some p =>
      intro g hg
      obtain ⟨n, -, hn, heq⟩ | ⟨q, -, -, heq⟩ | heq := Step.next_cases (hopen p rfl) b
      · rw [show Step.take (some p) b = _ from heq] at hg
        rw [List.mem_singleton.mp hg]
        intro hdigit
        have := (ofNat_isDigit hdigit).2
        omega
      · rw [show Step.take (some p) b = _ from heq] at hg
        cases hg
      · rw [show Step.take (some p) b = _ from heq] at hg
        rcases List.mem_cons.mp hg with rfl | hg
        · exact plain_illFormed _
        · exact Step.first_plain b g hg

theorem plain_readFrom {open? : Option Partial} (hopen : Sound open?) (t : Text) :
    ∀ g ∈ readFrom open? t, g.Plain := by
  induction t generalizing open? with
  | nil =>
      cases open? with
      | none => simp
      | some p => simpa using plain_illFormed p.read
  | cons b t ih =>
      intro g hg
      rw [readFrom_cons] at hg
      rcases List.mem_append.mp hg with hg | hg
      · exact Step.take_plain hopen b g hg
      · exact ih (Step.take_good hopen b).left g hg

end Glyph

theorem Text.plain_of_mem_glyphs {t : Text} {g : Glyph} (hg : g ∈ t.glyphs) : g.Plain :=
  Glyph.plain_readFrom .none t g hg

/-! ## Numerals -/

namespace Numeral

theorem takeDigits_ne_nil {isDigit : UInt8 → Bool} {b : UInt8} (hb : isDigit b = true) (t : Text) :
    (takeDigits isDigit (b :: t)).1 ≠ [] := by
  have hwhole : (b :: t).takeWhile isDigit ≠ [] := by simp [hb]
  simp only [takeDigits]
  split
  · split <;> exact hwhole
  · exact hwhole

theorem decimal?_isSome {b : UInt8} (hb : Text.isDigit b = true) (negative : Bool) (t : Text) :
    (decimal? negative (b :: t)).isSome = true := by
  have hwhole := takeDigits_ne_nil hb t
  simp [decimal?, hwhole]

/-- A digit is neither white space nor a sign. -/
theorem start_of_isDigit {b : UInt8} (hb : Text.isDigit b = true) (t : Text) :
    takeSign ((b :: t).dropWhile isBlank) = (false, b :: t) := by
  have hlow : 48 ≤ b.toNat := (of_decide_eq_true (Bool.and_eq_true_iff.mp hb).1 : 48 ≤ b)
  have hblank : (b :: t).dropWhile isBlank = b :: t := by
    refine List.dropWhile_cons_of_neg ?_
    simp [isBlank, UInt8.le_iff_toNat_le, ← UInt8.toNat_inj]
    omega
  have hminus : b ≠ Text.byte '-' := by rintro rfl; exact absurd hlow (by decide)
  have hplus : b ≠ Text.byte '+' := by rintro rfl; exact absurd hlow (by decide)
  rw [hblank, takeSign, if_neg hminus, if_neg hplus]

/-- A text that starts with a digit starts with a number. -/
theorem leading?_isSome {b : UInt8} (hb : Text.isDigit b = true) (t : Text) :
    (leading? (b :: t)).isSome = true := by
  simp only [leading?, start_of_isDigit hb]
  split
  · rfl
  split
  · rfl
  split
  · rfl
  · exact decimal?_isSome hb false t

theorem read_ne_invalid {b : UInt8} (hb : Text.isDigit b = true) (t : Text) :
    read (b :: t) ≠ .error .invalid := by
  obtain ⟨numeral, hleading⟩ := Option.isSome_iff_exists.mp (leading?_isSome hb t)
  rw [read, hleading]
  cases numeral with
  | finite negative mantissa exponent =>
      dsimp only
      split <;> simp
  | infinite negative => simp
  | nan negative => simp

end Numeral

/-! ## Number tokens -/

namespace Token

variable {a : Alphabet}

theorem number_token (gs : List Glyph) :
    (number gs).token? = some (.number, Glyph.text (number gs).taken) := by
  simp only [number]
  split
  · split <;> rfl
  · rfl

theorem string_token {pos : Pos} {g : Glyph} {gs : List Glyph} {p : Piece}
    (h : string pos g gs = .ok p) : ∃ text, p.token? = some (.string, text) := by
  rw [string] at h
  split at h
  · split at h
    · cases h
      exact ⟨_, rfl⟩
    · cases h
  · cases h

/-- A token is a word, a number, a string or one of the signs. -/
theorem token_cases {pos : Pos} {g : Glyph} {gs : List Glyph} {p : Piece} {token : Kind × Text}
    (h : piece a pos g gs = .ok p) (htoken : p.token? = some token) : ∃ c, g.char? = some c
      ∧ (a.isStart c = true ∧ p = word a (g :: gs)
        ∨ c.isDigit = true ∧ p = number (g :: gs)
        ∨ c = '"' ∧ string pos g gs = .ok p
        ∨ token ∈ singles.map Prod.snd ++ doubles.map Prod.snd) := by
  rw [piece] at h
  split at h
  · cases h
  rename_i c hchar
  refine ⟨c, hchar, ?_⟩
  split at h
  · cases h
    cases htoken
  split at h
  · cases h
    cases htoken
  split at h
  · rename_i hstart
    cases h
    exact .inl ⟨hstart, rfl⟩
  split at h
  · rename_i hdigit
    cases h
    exact .inr (.inl ⟨hdigit, rfl⟩)
  split at h
  · rename_i hquote
    exact .inr (.inr (.inl ⟨hquote, h⟩))
  · obtain ⟨e, hlookup, rfl⟩ | ⟨_, e, _, _, hlookup, -, rfl⟩ := operator_cases h
    · cases htoken
      have hmem : token ∈ singles.map Prod.snd := List.mem_map_of_mem (mem_of_lookup hlookup)
      exact .inr (.inr (.inr (List.mem_append_left _ hmem)))
    · cases htoken
      have hmem : token ∈ doubles.map Prod.snd := List.mem_map_of_mem (mem_of_lookup hlookup)
      exact .inr (.inr (.inr (List.mem_append_right _ hmem)))

/-- A number token is cut where a digit stands, and its text starts with that digit. -/
theorem piece_number {pos : Pos} {g : Glyph} {gs : List Glyph} {p : Piece} {text : Text}
    (h : piece a pos g gs = .ok p) (htoken : p.token? = some (.number, text)) :
    isDigit g = true ∧ ∃ rest, text = Glyph.text (g :: rest) := by
  obtain ⟨c, hchar, ⟨-, rfl⟩ | ⟨hdigit, rfl⟩ | ⟨-, hstring⟩ | hsign⟩ := token_cases h htoken
  · exact absurd (Prod.mk.inj (Option.some.inj htoken)).1
      (Kind.ofWord_ne (by decide) (by decide) _)
  · have hg : isDigit g = true := by simpa [isDigit, Glyph.holds, hchar] using hdigit
    have hcut : (number (g :: gs)).CutFrom a (g :: gs) := number_cutFrom hg
    obtain ⟨first, rest, htaken⟩ := List.exists_cons_of_ne_nil hcut.taken_ne_nil
    have hsplit := hcut.split
    rw [htaken] at hsplit
    obtain ⟨rfl, -⟩ := List.cons.inj hsplit
    rw [number_token, htaken] at htoken
    cases htoken
    exact ⟨hg, rest, rfl⟩
  · obtain ⟨body, hbody⟩ := string_token hstring
    rw [hbody] at htoken
    cases htoken
  · have hsigns : ∀ e ∈ singles.map Prod.snd ++ doubles.map Prod.snd, e.1 ≠ .number := by decide
    exact absurd rfl (hsigns _ hsign)

/-- Every token but the last comes from a piece that starts with one of the glyphs. -/
theorem exists_piece_of_mem {fuel : Nat} {place : Place} {gs : List Glyph} {tokens : List Token}
    (hscan : scanFrom a fuel place gs = .ok tokens) {t : Token} (ht : t ∈ tokens)
    (hkind : t.kind ≠ .eof) :
    ∃ pos g rest p, g ∈ gs ∧ piece a pos g rest = .ok p ∧ p.token? = some (t.kind, t.text) := by
  induction fuel generalizing place gs tokens with
  | zero =>
      cases gs with
      | nil =>
          cases hscan
          rw [List.mem_singleton.mp ht] at hkind
          exact absurd rfl hkind
      | cons g gs =>
          cases hscan
          cases ht
  | succ fuel ih =>
      cases gs with
      | nil =>
          cases hscan
          rw [List.mem_singleton.mp ht] at hkind
          exact absurd rfl hkind
      | cons g gs =>
          obtain ⟨p, more, hpiece, hmore, rfl⟩ := scanFrom_cons hscan
          have hrest (hmem : t ∈ more) : ∃ pos h rest q, h ∈ g :: gs ∧ piece a pos h rest = .ok q
              ∧ q.token? = some (t.kind, t.text) := by
            obtain ⟨pos, h, rest, q, hh, hq⟩ := ih hmore hmem
            refine ⟨pos, h, rest, q, ?_, hq⟩
            rw [(piece_cutFrom hpiece).split]
            exact List.mem_append_right _ hh
          cases htoken : p.token? with
          | none =>
              rw [htoken] at ht
              exact hrest ht
          | some token =>
              rw [htoken] at ht
              rcases List.mem_cons.mp ht with rfl | ht
              · exact ⟨place.pos, g, gs, p, List.mem_cons_self, hpiece, htoken⟩
              · exact hrest ht

/-- The text of a number token is read as a number, in or out of range. -/
theorem read_ne_invalid_of_mem {source : Text} {tokens : List Token}
    (hscan : scanIn a source = .ok tokens) {t : Token} (ht : t ∈ tokens)
    (hkind : t.kind = .number) : Numeral.read t.text ≠ .error .invalid := by
  obtain ⟨pos, g, rest, p, hg, hpiece, htoken⟩ :=
    exists_piece_of_mem hscan ht (by rw [hkind]; decide)
  rw [hkind] at htoken
  obtain ⟨hdigit, rest, htext⟩ := piece_number hpiece htoken
  obtain ⟨b, hb, hbytes⟩ := Text.plain_of_mem_glyphs hg hdigit
  rw [htext, Glyph.text_cons, hbytes]
  exact Numeral.read_ne_invalid hb _

/-! ## Where no token starts -/

theorem piece_error_pos {pos : Pos} {g : Glyph} {gs : List Glyph} {e : Error}
    (h : piece a pos g gs = .error e) : e.pos = pos := by
  simp only [piece, string, operator] at h
  grind [Error.pos]

end Token

/-- A place in a text: where a glyph begins, or where the text ends. -/
def Text.IsPlace (text : Text) (pos : Pos) : Prop :=
  ∃ pre post, text.glyphs = pre ++ post ∧ pos = Text.endPos (Glyph.text pre)

namespace Token

variable {a : Alphabet}

theorem scanFrom_error {text : Text} {pre gs : List Glyph} (h : text.glyphs = pre ++ gs)
    {fuel : Nat} {e : Error} (hscan : scanFrom a fuel (Place.afterAll {} pre) gs = .error e) :
    text.IsPlace e.pos := by
  induction fuel generalizing pre gs with
  | zero => cases gs <;> cases hscan
  | succ fuel ih =>
      cases gs with
      | nil => cases hscan
      | cons g gs =>
          simp only [scanFrom, bind, Except.bind] at hscan
          cases hpiece : piece a (Place.afterAll {} pre).pos g gs with
          | error failure =>
              rw [hpiece] at hscan
              cases hscan
              refine ⟨pre, g :: gs, h, ?_⟩
              rw [piece_error_pos hpiece, afterAll_eq (Text.glyphs_split h).1]
          | ok p =>
              rw [hpiece] at hscan
              dsimp only at hscan
              rw [(piece_cutFrom hpiece).split, ← List.append_assoc] at h
              rw [← afterAll_append] at hscan
              cases hmore : scanFrom a fuel (Place.afterAll {} (pre ++ p.taken)) p.rest with
              | error failure =>
                  rw [hmore] at hscan
                  cases hscan
                  exact ih h hmore
              | ok more =>
                  rw [hmore] at hscan
                  dsimp only at hscan
                  split at hscan <;> cases hscan

theorem scanIn_error {source : Text} {e : Error} (h : scanIn a source = .error e) :
    (a.composed source).IsPlace e.pos :=
  scanFrom_error (List.nil_append _).symm h

theorem TilesFrom.isPlace {text : Text} {start : Nat} {body : List Token} {last t : Token}
    (h : TilesFrom a text start body last) (ht : t ∈ body ++ [last]) : text.IsPlace t.pos :=
  ⟨_, _, h.glyphs_eq t ht, by rw [h.pos_eq t ht, Text.text_glyphs]⟩

end Token

/-! ## Reading a source -/

namespace Analysis

open Token

/-- Reading with nothing measured: the two stages, one after the other. -/
theorem read_silent (source : Text) :
    (read (Probe.silent (m := Id)) source).run
      = match Token.scan source with
        | .error e => .error (.lexical e)
        | .ok tokens =>
          match Program.ofTokens tokens with
          | .error failure => .error (.grammatical failure)
          | .ok p => .ok (tokens, p) := by
  simp only [read, Probe.silent]
  cases hscan : Token.scan source with
  | error e => rfl
  | ok tokens =>
      change ((ExceptT.mk (m := Id) (pure ((Program.ofTokens tokens).mapError .grammatical))) >>=
        fun p => pure (tokens, p) : ExceptT Error Id (List Token × Program)).run = _
      dsimp only
      cases Program.ofTokens tokens <;> rfl

/-- **What can keep a source from being read.** Reading a source gives its tokens and its program,
or an error with a place in the composed source, or it stops without a place at a number token whose
value is out of the range of double precision. -/
theorem read_outcome (source : Text) :
    (∃ tokens p, (read (Probe.silent (m := Id)) source).run = .ok (tokens, p))
      ∨ (∃ e pos, (read (Probe.silent (m := Id)) source).run = .error e ∧ e.pos? = some pos
          ∧ source.composed.IsPlace pos)
      ∨ ((read (Probe.silent (m := Id)) source).run
            = .error (.grammatical (.numeral .outOfRange))
          ∧ ∃ tokens t, Token.scan source = .ok tokens ∧ t ∈ tokens ∧ t.kind = .number
            ∧ Numeral.read t.text = .error .outOfRange) := by
  rw [read_silent]
  cases hscan : Token.scan source with
  | error e => exact .inr (.inl ⟨_, _, rfl, rfl, scanIn_error hscan⟩)
  | ok tokens =>
      obtain ⟨body, last, rfl, htiles⟩ :=
        scanFrom_tilesFrom (Nat.le_refl _) (List.nil_append _).symm hscan
      dsimp only
      cases hprogram : Program.ofTokens (body ++ [last]) with
      | ok p => exact .inl ⟨_, _, rfl⟩
      | error failure =>
          right
          obtain ⟨expected, c, rfl, hpeek⟩ | ⟨error, rfl, t, ht, hkind, hread⟩ :=
            Program.ofTokens_fault htiles.body_kind htiles.last_kind hprogram
          · exact .inl ⟨_, _, rfl, rfl, htiles.isPlace hpeek⟩
          · right
            have hmem : t ∈ body ++ [last] := List.mem_append_left _ ht
            cases error with
            | invalid => exact absurd hread (read_ne_invalid_of_mem hscan hmem hkind)
            | outOfRange => exact ⟨rfl, _, t, rfl, hmem, hkind, hread⟩

-- The third case is met: four hundred digits are cut and read as a number like any other.
example :
    ((read (Probe.silent (m := Id)) (Text.ofString "begin x <- " ++ List.replicate 400 57
      ++ Text.ofString " end")).run.map fun _ => ())
      = .error (.grammatical (.numeral .outOfRange)) := by
  decide +kernel

end Analysis

end PseudoCost
