import PseudoCost.Proofs.Folding
import PseudoCost.Proofs.Scanning
import PseudoCost.Proofs.SourceErrors

/-!
# Canonical text

The texts of the tokens of a source, written one after another with spaces between them, are a
source of the same tokens (`scan_canonical`): names in one case, operators in one spelling, and
numbers and strings as they were.

A token's text need not be what stood in the source, so this is not a matter of cutting the same
pieces again. For each kind of piece it is shown that its canonical text, in front of a space or the
end, is itself read as one token with that text (`Stands`): a folded word is a word that folds to
itself, a number goes on no further, a string holds neither quotes nor newlines, and every operator
of the tables has an own spelling that is in the tables. Composing leaves the new text alone, since
none of its characters is a mark.
-/

namespace PseudoCost.Token

open PseudoCost.Composition (Settled)

/-- How a text is written as a token of a kind: a string stands in quotes. -/
def Kind.spelling (kind : Kind) (text : Text) : Text :=
  if kind = .string then "\"" ++ text ++ "\"" else text

/-- How a token is written again: by its canonical text. -/
def spelling (t : Token) : Text := t.kind.spelling t.text

/-- The tokens but the last one as a source. -/
def canonicalText (ts : List Token) : Text := Text.join " " (ts.dropLast.map spelling)

/-! ## Where a piece stops -/

/-- The glyphs begin with a space, if there are any. -/
def Stops (rest : List Glyph) : Prop := ∀ g ∈ rest.head?, g = Glyph.ofChar ' '

theorem Stops.head {rest : List Glyph} (hrest : Stops rest) {p : Glyph → Bool}
    (hp : p (Glyph.ofChar ' ') = false) : ∀ g ∈ rest.head?, p g = false := by
  intro g hg
  rw [hrest g hg, hp]

section Runs

variable {p : Glyph → Bool} {gs rest : List Glyph} (hgs : ∀ g ∈ gs, p g = true)
  (hrest : ∀ g ∈ rest.head?, p g = false)

include hgs hrest

theorem takeWhile_until : (gs ++ rest).takeWhile p = gs := by
  rw [List.takeWhile_append_of_pos hgs]
  cases rest with
  | nil => rw [List.takeWhile_nil, List.append_nil]
  | cons g rest => rw [List.takeWhile_cons_of_neg (by simp [hrest g rfl]), List.append_nil]

theorem dropWhile_until : (gs ++ rest).dropWhile p = rest := by
  rw [List.dropWhile_append_of_pos hgs]
  cases rest with
  | nil => rfl
  | cons g rest => rw [List.dropWhile_cons_of_neg (by simp [hrest g rfl])]

end Runs

theorem holds_of_mem_takeWhile {p : Glyph → Bool} {gs : List Glyph} {g : Glyph}
    (hg : g ∈ gs.takeWhile p) : p g = true := List.all_eq_true.mp List.all_takeWhile g hg

/-- The characters are read as one token with a given text, whatever comes next of what may. -/
def StandsBefore (next : List Glyph → Prop) (cs : List Char) (kind : Kind) (text : Text) : Prop :=
  ∃ c ds, cs = c :: ds ∧ ∀ pos rest, next rest →
    piece .standard pos (.ofChar c) (ds.map .ofChar ++ rest)
      = .ok ⟨some (kind, text), cs.map .ofChar, rest⟩

/-- The characters are read as one token with a given text, in front of a space or the end. -/
def Stands (cs : List Char) (kind : Kind) (text : Text) : Prop := StandsBefore Stops cs kind text

theorem piece_of_not_gap {c : Char}
    (hc : c ≠ '\n' ∧ Letter.isBlank c = false ∧ c ≠ commentSign) (pos : Pos) (gs : List Glyph) :
    piece .standard pos (.ofChar c) gs
      = if Letter.isStart c then .ok (word .standard (.ofChar c :: gs))
        else if c.isDigit then .ok (number (.ofChar c :: gs))
        else if c = '"' then string pos (.ofChar c) gs
        else operator pos c (.ofChar c) gs := by
  obtain ⟨hnewline, hblank, hcomment⟩ := hc
  have hgap : ¬ (decide (c = '\n') || Letter.isBlank c) = true := by simp [hnewline, hblank]
  rw [piece]
  exact (if_neg hgap).trans (if_neg hcomment)

/-! ## Words -/

theorem piece_of_isStart {c : Char} (hc : Letter.isStart c = true) (pos : Pos) (gs : List Glyph) :
    piece .standard pos (.ofChar c) gs = .ok (word .standard (.ofChar c :: gs)) := by
  rw [piece_of_not_gap (Letter.of_isStart hc), if_pos hc]

theorem text_ofChar (cs : List Char) : Glyph.text (cs.map .ofChar) = Text.ofChars cs := by
  rw [Glyph.text, List.flatMap_map]
  rfl

theorem foldText_ofChar (cs : List Char) :
    foldText .standard (cs.map .ofChar) = Text.ofChars (cs.flatMap Letter.fold) := by
  rw [foldText, List.flatMap_map, Text.ofChars, List.flatMap_assoc]
  rfl

theorem flatMap_fold_of_folded {cs : List Char} (hcs : ∀ c ∈ cs, Letter.Folded c) :
    cs.flatMap Letter.fold = cs := by
  induction cs with
  | nil => rfl
  | cons c cs ih =>
      obtain ⟨hc, hcs⟩ := List.forall_mem_cons.mp hcs
      rw [List.flatMap_cons, hc.1, ih hcs, List.singleton_append]

/-- A word as folding leaves it: the case-folded text of a name or a keyword. -/
def FoldedWord (text : Text) : Prop :=
  ∃ cs : List Char, cs.head?.any Letter.isStart = true ∧ (∀ d ∈ cs, Letter.Folded d)
    ∧ Text.ofChars cs = text

theorem foldedWord_ofString (word : String) (hstart : word.toList.head?.any Letter.isStart = true)
    (hall : (word.toList.all fun c => Letter.Folded c) = true) : FoldedWord word :=
  ⟨word.toList, hstart, fun c hc => of_decide_eq_true (List.all_eq_true.mp hall c hc),
    Text.ofChars_toList word⟩

/-- A folded word is a word that folds to itself, up to where no letter comes next. -/
theorem standsBefore_word {next : List Glyph → Prop}
    (hnext : ∀ rest, next rest → ∀ g ∈ rest.head?, g.holds Letter.isPart = false) {cs : List Char}
    (hstart : cs.head?.any Letter.isStart = true) (hcs : ∀ c ∈ cs, Letter.Folded c) :
    StandsBefore next cs (Kind.ofWord (Text.ofChars cs)) (Text.ofChars cs) := by
  cases cs with
  | nil => cases hstart
  | cons c cs =>
      refine ⟨c, cs, rfl, fun pos rest hrest => ?_⟩
      have hparts : ∀ g ∈ (c :: cs).map Glyph.ofChar, g.holds Alphabet.standard.isPart = true := by
        intro g hg
        obtain ⟨d, hd, rfl⟩ := List.mem_map.mp hg
        exact (hcs d hd).2.1
      have htaken := takeWhile_until hparts (hnext rest hrest)
      have hleft := dropWhile_until hparts (hnext rest hrest)
      rw [List.map_cons, List.cons_append] at htaken hleft
      rw [piece_of_isStart hstart, word, htaken, hleft, ← List.map_cons, foldText_ofChar,
        flatMap_fold_of_folded hcs]

theorem stands_word {cs : List Char} (hstart : cs.head?.any Letter.isStart = true)
    (hcs : ∀ c ∈ cs, Letter.Folded c) :
    Stands cs (Kind.ofWord (Text.ofChars cs)) (Text.ofChars cs) :=
  standsBefore_word (fun _ hrest => hrest.head (by decide)) hstart hcs

/-! ## Numbers -/

theorem piece_of_isDigit {c : Char} (hc : c.isDigit = true) (pos : Pos) (gs : List Glyph) :
    piece .standard pos (.ofChar c) gs = .ok (number (.ofChar c :: gs)) := by
  obtain ⟨hgap, hstart⟩ := Letter.of_isDigit hc
  rw [piece_of_not_gap hgap, if_neg (by simp [hstart]), if_pos hc]

/-- The glyphs do not carry a number on: no digit comes first, nor a point and a digit. -/
def EndsNumber (rest : List Glyph) : Prop :=
  (∀ g ∈ rest.head?, isDigit g = false)
    ∧ ∀ g more, rest = g :: more → (g.is '.' && more.head?.any isDigit) = false

theorem Stops.endsNumber {rest : List Glyph} (hrest : Stops rest) : EndsNumber rest := by
  refine ⟨hrest.head rfl, ?_⟩
  rintro g more rfl
  rw [hrest g rfl]
  rfl

section Numbers

variable {whole fraction rest : List Glyph} {point : Glyph}
  (hwhole : ∀ g ∈ whole, isDigit g = true) (hrest : EndsNumber rest)

include hwhole hrest

theorem number_whole :
    number (whole ++ rest) = ⟨some (.number, Glyph.text whole), whole, rest⟩ := by
  simp only [number, takeWhile_until hwhole hrest.1, dropWhile_until hwhole hrest.1]
  cases rest with
  | nil => rfl
  | cons g rest =>
      dsimp only
      rw [hrest.2 g rest rfl]
      rfl

theorem number_fraction (hpoint : point.is '.' = true)
    (hfraction : ∀ g ∈ fraction, isDigit g = true) (hne : fraction ≠ []) :
    number (whole ++ point :: fraction ++ rest)
      = ⟨some (.number, Glyph.text (whole ++ point :: fraction)), whole ++ point :: fraction,
        rest⟩ := by
  have hchar : point.char? = some '.' := beq_iff_eq.mp hpoint
  have hend : ∀ g ∈ (point :: (fraction ++ rest)).head?, isDigit g = false := by
    rintro g ⟨⟩
    rw [isDigit, Glyph.holds, hchar]
    rfl
  have hhead : (fraction ++ rest).head?.any isDigit = true := by
    obtain ⟨g, fraction, rfl⟩ := List.exists_cons_of_ne_nil hne
    exact hfraction g List.mem_cons_self
  rw [List.append_assoc, List.cons_append]
  simp only [number, takeWhile_until hwhole hend, dropWhile_until hwhole hend, hpoint, hhead,
    Bool.and_self, if_true, takeWhile_until hfraction hrest.1, dropWhile_until hfraction hrest.1]

end Numbers

/-- Glyphs in the form of a number: digits, and maybe a point with more digits after it. -/
inductive NumberGlyphs : List Glyph → Prop
  | whole {gs} : (∀ g ∈ gs, isDigit g = true) → NumberGlyphs gs
  | fraction {gs point hs} : (∀ g ∈ gs, isDigit g = true) → point.is '.' = true →
      (∀ g ∈ hs, isDigit g = true) → hs ≠ [] → NumberGlyphs (gs ++ point :: hs)

theorem NumberGlyphs.number_eq {gs rest : List Glyph} (h : NumberGlyphs gs)
    (hrest : EndsNumber rest) :
    number (gs ++ rest) = ⟨some (.number, Glyph.text gs), gs, rest⟩ := by
  cases h with
  | whole hgs => exact number_whole hgs hrest
  | fraction hgs hpoint hhs hne => exact number_fraction hgs hrest hpoint hhs hne

theorem numberGlyphs_taken (gs : List Glyph) : NumberGlyphs (number gs).taken := by
  have hwhole : ∀ g ∈ gs.takeWhile isDigit, isDigit g = true := fun _ => holds_of_mem_takeWhile
  simp only [number]
  split
  next point more _ =>
    split
    next hfraction =>
      obtain ⟨hpoint, hmore⟩ := Bool.and_eq_true_iff.mp hfraction
      have hne : more.takeWhile isDigit ≠ [] := by
        cases more with
        | nil => cases hmore
        | cons g more =>
            have hg : isDigit g = true := hmore
            rw [List.takeWhile_cons_of_pos hg]
            exact List.cons_ne_nil _ _
      exact .fraction hwhole hpoint (fun _ => holds_of_mem_takeWhile) hne
    next => exact .whole hwhole
  next => exact .whole hwhole

theorem standsBefore_number {next : List Glyph → Prop} (hnext : ∀ rest, next rest → EndsNumber rest)
    {c : Char} {ds : List Char} (hc : c.isDigit = true)
    (h : NumberGlyphs ((c :: ds).map .ofChar)) :
    StandsBefore next (c :: ds) .number (Text.ofChars (c :: ds)) := by
  refine ⟨c, ds, rfl, fun pos rest hrest => ?_⟩
  rw [piece_of_isDigit hc, ← List.cons_append, ← List.map_cons, h.number_eq (hnext rest hrest),
    text_ofChar]

/-- A number is cut in the same way where a space comes next. -/
theorem stands_number {c : Char} {ds : List Char} (hc : c.isDigit = true) {gs : List Glyph}
    (htaken : (number gs).taken = (c :: ds).map .ofChar) :
    Stands (c :: ds) .number (Text.ofChars (c :: ds)) :=
  standsBefore_number (fun _ hrest => hrest.endsNumber) hc (htaken ▸ numberGlyphs_taken gs)

/-! ## Strings -/

theorem standsBefore_string (next : List Glyph → Prop) {body : List Char}
    (hbody : ∀ c ∈ body, inString (.ofChar c) = true) :
    StandsBefore next ('"' :: body ++ ['"']) .string (Text.ofChars body) := by
  refine ⟨'"', body ++ ['"'], rfl, fun pos rest _ => ?_⟩
  have hinside : ∀ g ∈ body.map Glyph.ofChar, inString g = true := by
    intro g hg
    obtain ⟨c, hc, rfl⟩ := List.mem_map.mp hg
    exact hbody c hc
  have hend : ∀ g ∈ (Glyph.ofChar '"' :: rest).head?, inString g = false := by
    rintro g ⟨⟩
    rfl
  have htext : ((body ++ ['"']).map .ofChar ++ rest : List Glyph)
      = body.map .ofChar ++ .ofChar '"' :: rest := by simp
  rw [piece_of_not_gap (by decide), if_neg (by decide), if_neg (by decide), if_pos rfl, htext]
  simp only [string, takeWhile_until hinside hend, dropWhile_until hinside hend, text_ofChar]
  simp [Glyph.is, Glyph.ofChar]

/-! ## Operators -/

/-- The character starts nothing but an operator. -/
def IsSign (c : Char) : Prop :=
  (c ≠ '\n' ∧ Letter.isBlank c = false ∧ c ≠ commentSign)
    ∧ Letter.isStart c = false ∧ c.isDigit = false ∧ c ≠ '"'

instance (c : Char) : Decidable (IsSign c) := inferInstanceAs (Decidable (_ ∧ _))

theorem piece_of_isSign {c : Char} (hc : IsSign c) (pos : Pos) (gs : List Glyph) :
    piece .standard pos (.ofChar c) gs = operator pos c (.ofChar c) gs := by
  obtain ⟨hgap, hstart, hdigit, hquote⟩ := hc
  rw [piece_of_not_gap hgap, if_neg (by simp [hstart]), if_neg (by simp [hdigit]), if_neg hquote]

theorem standsBefore_single {next : List Glyph → Prop} {c : Char}
    (hnext : ∀ g more, next (g :: more) → (g.char?.bind fun d => doubles.lookup (c, d)) = none)
    {kind : Kind} {text : Text} (hc : IsSign c) (h : singles.lookup c = some (kind, text)) :
    StandsBefore next [c] kind text := by
  refine ⟨c, [], rfl, fun pos rest hrest => ?_⟩
  rw [piece_of_isSign hc, List.map_nil, List.nil_append]
  cases rest with
  | nil => simp only [operator, h, List.map_cons, List.map_nil]
  | cons g rest => simp only [operator, hnext g rest hrest, h, List.map_cons, List.map_nil]

theorem stands_single {c : Char} {kind : Kind} {text : Text} (hc : IsSign c)
    (h : singles.lookup c = some (kind, text)) : Stands [c] kind text := by
  refine standsBefore_single (fun g more hrest => ?_) hc h
  rw [hrest g rfl]
  exact doubles_lookup_eq_none (by decide)

theorem standsBefore_double (next : List Glyph → Prop) {c d : Char} {kind : Kind} {text : Text}
    (hc : IsSign c) (h : doubles.lookup (c, d) = some (kind, text)) :
    StandsBefore next [c, d] kind text := by
  refine ⟨c, [d], rfl, fun pos rest _ => ?_⟩
  have hnext : ((Glyph.ofChar d).char?.bind fun d => doubles.lookup (c, d)) = some (kind, text) := h
  rw [piece_of_isSign hc, List.map_singleton, List.singleton_append]
  simp only [operator, hnext, List.map_cons, List.map_nil]

/-- The signs for infinity are read as a word; every other operator has a spelling of its own. -/
theorem own_spelling : ∀ e ∈ singles.map Prod.snd ++ doubles.map Prod.snd,
    (∃ own ∈ singles, IsSign own.1 ∧ Settled own.1 ∧ singles.lookup own.1 = some e
        ∧ Text.ofChars [own.1] = e.2)
      ∨ (∃ own ∈ doubles, IsSign own.1.1 ∧ Settled own.1.1 ∧ Settled own.1.2
        ∧ doubles.lookup own.1 = some e ∧ Text.ofChars [own.1.1, own.1.2] = e.2)
      ∨ e = (Kind.ofWord (Text.ofChars "infinity".toList), Text.ofChars "infinity".toList) := by
  decide +kernel

/-! ## Pieces -/

/-- The text can be written so that it is read as one token of the kind. -/
def Respelled (kind : Kind) (text : Text) : Prop :=
  ∃ cs, (∀ c ∈ cs, Settled c) ∧ Text.ofChars cs = kind.spelling text ∧ Stands cs kind text

theorem respelled_foldedWord {text : Text} (h : FoldedWord text) :
    Respelled (Kind.ofWord text) text := by
  obtain ⟨cs, hstart, hfolded, rfl⟩ := h
  refine ⟨cs, fun d hd => (hfolded d hd).2.2, ?_, stands_word hstart hfolded⟩
  rw [Kind.spelling, if_neg (Kind.ofWord_ne (by decide) (by decide) _)]

/-- The glyph is a character that composing leaves alone. -/
def Written (g : Glyph) : Prop := ∃ c, Settled c ∧ Glyph.ofChar c = g

theorem exists_chars {gs : List Glyph} (hgs : ∀ g ∈ gs, Written g) :
    ∃ cs : List Char, gs = cs.map .ofChar ∧ ∀ c ∈ cs, Settled c := by
  induction gs with
  | nil => exact ⟨[], rfl, List.forall_mem_nil _⟩
  | cons g gs ih =>
      obtain ⟨⟨c, hc, rfl⟩, hrest⟩ := List.forall_mem_cons.mp hgs
      obtain ⟨cs, rfl, hcs⟩ := ih hrest
      exact ⟨c :: cs, rfl, List.forall_mem_cons.mpr ⟨hc, hcs⟩⟩

theorem respelled_operator {e : Kind × Text}
    (he : e ∈ singles.map Prod.snd ++ doubles.map Prod.snd) : Respelled e.1 e.2 := by
  have hkinds : ∀ e ∈ singles.map Prod.snd ++ doubles.map Prod.snd, e.1 ≠ .string := by decide
  have hspelling : e.1.spelling e.2 = e.2 := if_neg (hkinds e he)
  rcases own_spelling e he with ⟨⟨c, _⟩, -, hsign, hc, hlookup, htext⟩
    | ⟨⟨⟨c, d⟩, _⟩, -, hsign, hc, hd, hlookup, htext⟩ | rfl
  · exact ⟨[c], by simpa using hc, by rw [hspelling, htext], stands_single hsign hlookup⟩
  · exact ⟨[c, d], by simpa using ⟨hc, hd⟩, by rw [hspelling, htext],
      standsBefore_double _ hsign hlookup⟩
  · have hword := foldedWord_ofString "infinity" (by decide) (by decide)
    exact respelled_foldedWord hword

section Pieces

variable {c : Char} {gs : List Glyph} {kind : Kind} {text : Text}

theorem foldedWord_of_piece (hc : Letter.isStart c = true)
    (hgs : ∀ g ∈ Glyph.ofChar c :: gs, Written g)
    (h : (word .standard (.ofChar c :: gs)).token? = some (kind, text)) :
    FoldedWord text ∧ Kind.ofWord text = kind := by
  obtain ⟨ds, hds, hsettled⟩ := exists_chars fun g hg =>
    hgs g ((List.takeWhile_sublist (Glyph.holds Letter.isPart)).subset hg)
  have hpart : ∀ d ∈ ds, Letter.isPart d = true := fun d hd =>
    holds_of_mem_takeWhile (p := Glyph.holds Letter.isPart)
      (hds ▸ List.mem_map_of_mem hd : Glyph.ofChar d ∈ _)
  have hfolded : ∀ d ∈ ds.flatMap Letter.fold, Letter.Folded d := by
    intro d hd
    obtain ⟨e, he, hd⟩ := List.mem_flatMap.mp hd
    exact Letter.folded_of_mem_fold (hpart e he) (hsettled e he) hd
  have hstart : (ds.flatMap Letter.fold).head?.any Letter.isStart = true := by
    have hfirst : (Glyph.ofChar c).holds Letter.isPart = true :=
      Alphabet.standard.isPart_of_isStart c hc
    rw [List.takeWhile_cons_of_pos hfirst] at hds
    cases ds with
    | nil => cases hds
    | cons d ds =>
        obtain rfl : c = d := Option.some.inj (congrArg Glyph.char? (List.cons.inj hds).1)
        have hfold := Letter.start_of_fold hc
        rw [List.flatMap_cons, List.head?_append]
        cases hd : (Letter.fold c).head? with
        | none => rw [hd] at hfold; cases hfold
        | some d => rw [hd] at hfold; exact hfold
  have htext : foldText .standard ((Glyph.ofChar c :: gs).takeWhile (Glyph.holds Letter.isPart))
      = Text.ofChars (ds.flatMap Letter.fold) := by rw [hds, foldText_ofChar]
  obtain ⟨rfl, rfl⟩ := Prod.mk.inj (Option.some.inj h)
  exact ⟨⟨ds.flatMap Letter.fold, hstart, hfolded, htext.symm⟩, rfl⟩

theorem respelled_word (hc : Letter.isStart c = true)
    (hgs : ∀ g ∈ Glyph.ofChar c :: gs, Written g)
    (h : (word .standard (.ofChar c :: gs)).token? = some (kind, text)) : Respelled kind text := by
  obtain ⟨hword, rfl⟩ := foldedWord_of_piece hc hgs h
  exact respelled_foldedWord hword

theorem respelled_number (hc : c.isDigit = true) (hgs : ∀ g ∈ Glyph.ofChar c :: gs, Written g)
    (h : (number (.ofChar c :: gs)).token? = some (kind, text)) : Respelled kind text := by
  have hcut : (number (.ofChar c :: gs)).CutFrom .standard (.ofChar c :: gs) := number_cutFrom hc
  obtain ⟨ds, hds, hsettled⟩ := exists_chars fun g hg =>
    hgs g (hcut.split ▸ List.mem_append_left _ hg)
  rw [number_token, hds, text_ofChar] at h
  cases h
  cases ds with
  | nil => exact absurd hds hcut.taken_ne_nil
  | cons d ds =>
      have hsplit := hcut.split
      rw [hds] at hsplit
      obtain rfl : c = d := Option.some.inj (congrArg Glyph.char? (List.cons.inj hsplit).1)
      exact ⟨c :: ds, hsettled, rfl, stands_number hc hds⟩

theorem exists_body_of_string (hgs : ∀ g ∈ gs, Written g) {pos : Pos} {p : Piece}
    (hp : string pos (.ofChar '"') gs = .ok p) :
    ∃ body : List Char, (∀ d ∈ body, Settled d ∧ inString (.ofChar d) = true)
      ∧ p.token? = some (.string, Text.ofChars body) := by
  obtain ⟨ds, hds, hsettled⟩ := exists_chars fun g hg =>
    hgs g ((List.takeWhile_sublist inString).subset hg)
  have hinside : ∀ d ∈ ds, inString (.ofChar d) = true := fun d hd =>
    holds_of_mem_takeWhile (p := inString) (hds ▸ List.mem_map_of_mem hd : Glyph.ofChar d ∈ _)
  refine ⟨ds, fun d hd => ⟨hsettled d hd, hinside d hd⟩, ?_⟩
  rw [← text_ofChar, ← hds]
  simp only [string] at hp
  split at hp
  · split at hp
    · cases hp; rfl
    · cases hp
  · cases hp

/-- A string in its quotes is made of characters that composing leaves alone. -/
theorem settled_quoted {body : List Char} (hbody : ∀ d ∈ body, Settled d) :
    ∀ d ∈ '"' :: body ++ ['"'], Settled d := by
  have hquote : Settled '"' := by decide
  intro d hd
  simp only [List.cons_append, List.mem_cons, List.mem_append, List.not_mem_nil, or_false] at hd
  rcases hd with rfl | hd | rfl
  · exact hquote
  · exact hbody d hd
  · exact hquote

theorem ofChars_quoted (body : List Char) :
    Text.ofChars ('"' :: body ++ ['"']) = "\"" ++ Text.ofChars body ++ "\"" := by
  rw [Text.ofChars_append]
  rfl

theorem respelled_string (hgs : ∀ g ∈ gs, Written g) {pos : Pos} {p : Piece}
    (hp : string pos (.ofChar '"') gs = .ok p) (h : p.token? = some (kind, text)) :
    Respelled kind text := by
  obtain ⟨body, hbody, htoken⟩ := exists_body_of_string hgs hp
  cases htoken.symm.trans h
  exact ⟨_, settled_quoted fun d hd => (hbody d hd).1, ofChars_quoted body,
    standsBefore_string _ fun d hd => (hbody d hd).2⟩

/-- Every token that is cut from a text can be written again. -/
theorem respelled_of_piece {pos : Pos} {g : Glyph} {p : Piece}
    (hgs : ∀ h ∈ g :: gs, Written h) (hp : piece .standard pos g gs = .ok p)
    (h : p.token? = some (kind, text)) : Respelled kind text := by
  obtain ⟨⟨c, -, rfl⟩, hrest⟩ := List.forall_mem_cons.mp hgs
  obtain ⟨d, hchar, ⟨hstart, rfl⟩ | ⟨hdigit, rfl⟩ | ⟨hquote, hstring⟩ | hsign⟩ := token_cases hp h
  · cases hchar
    exact respelled_word hstart hgs h
  · cases hchar
    exact respelled_number hdigit hgs h
  · cases hchar
    exact respelled_string hrest (hquote ▸ hstring) h
  · exact respelled_operator hsign

end Pieces

/-! ## Sources -/

theorem scanAll_space (place : Place) (gs : List Glyph) :
    scanAll .standard place (.ofChar ' ' :: gs)
      = scanAll .standard (place.after (.ofChar ' ')) gs := by
  have hpiece : piece .standard place.pos (.ofChar ' ') gs = .ok ⟨none, [.ofChar ' '], gs⟩ := rfl
  rw [scanAll_cons, hpiece]
  exact congrFun Except.map_id _

theorem scanAll_stands {next : List Glyph → Prop} {cs : List Char} {kind : Kind} {text : Text}
    (h : StandsBefore next cs kind text) {rest : List Glyph} (hrest : next rest) (place : Place) :
    scanAll .standard place (cs.map .ofChar ++ rest)
      = (scanAll .standard (place.afterAll (cs.map .ofChar)) rest).map
          (⟨kind, text, Glyph.text (cs.map .ofChar), place.pos, place.offset⟩ :: ·) := by
  obtain ⟨c, ds, rfl, hpiece⟩ := h
  rw [List.map_cons, List.cons_append, scanAll_cons, hpiece _ _ hrest]
  rfl

/-- Tokens written one after another with spaces between them are read again. -/
theorem exists_scanAll_spelling {ts : List Token} (hts : ∀ t ∈ ts, Respelled t.kind t.text) :
    ∃ cs : List Char, (∀ c ∈ cs, Settled c) ∧ Text.ofChars cs = Text.join " " (ts.map spelling)
      ∧ ∀ place, ∃ again, scanAll .standard place (cs.map .ofChar) = .ok again
        ∧ again.map (fun t => (t.kind, t.text))
          = ts.map (fun t => (t.kind, t.text)) ++ [(.eof, [])] := by
  induction ts with
  | nil => exact ⟨[], by simp, rfl, fun place => ⟨_, rfl, rfl⟩⟩
  | cons t ts ih =>
      obtain ⟨⟨cs, hcs, htext, hstands⟩, hrest⟩ := List.forall_mem_cons.mp hts
      cases ts with
      | nil =>
          refine ⟨cs, hcs, ?_, fun place => ?_⟩
          · simpa [Text.join, spelling] using htext
          · have hend : Stops [] := by simp [Stops]
            have hscan := scanAll_stands hstands hend place
            rw [List.append_nil, scanAll_nil] at hscan
            exact ⟨_, hscan, rfl⟩
      | cons u ts =>
          obtain ⟨ds, hds, hjoin, hagain⟩ := ih hrest
          refine ⟨cs ++ ' ' :: ds, ?_, ?_, fun place => ?_⟩
          · have hspace : Settled ' ' := by decide
            exact List.forall_mem_append.mpr ⟨hcs, List.forall_mem_cons.mpr ⟨hspace, hds⟩⟩
          · have hspace : Text.ofChars (' ' :: ds) = Text.ofString " " ++ Text.ofChars ds := rfl
            have hcons : Text.join " " ((t :: u :: ts).map spelling)
                = t.spelling ++ Text.ofString " " ++ Text.join " " ((u :: ts).map spelling) :=
              List.intercalate_cons_cons ..
            rw [Text.ofChars_append, htext, hspace, hjoin, hcons, List.append_assoc]
            rfl
          · obtain ⟨again, hscan, hsame⟩ := hagain
              ((place.afterAll (cs.map .ofChar)).after (.ofChar ' '))
            have hstops : Stops (.ofChar ' ' :: ds.map .ofChar) := by rintro g ⟨⟩; rfl
            rw [List.map_append, List.map_cons, scanAll_stands hstands hstops, scanAll_space, hscan]
            exact ⟨_, rfl, congrArg ((t.kind, t.text) :: ·) hsame⟩

/-- **Canonical text is a fixed point.** If a source without combining marks can be cut into tokens,
then their canonical texts with single spaces between them can be cut into tokens of the same kinds
and texts. -/
theorem scan_canonical {cs : List Char} (hcs : ∀ c ∈ cs, Composition.isMark c = false)
    {ts : List Token} (h : scan (Text.ofChars cs) = .ok ts) :
    ∃ again, scan (canonicalText ts) = .ok again
      ∧ again.map (fun t => (t.kind, t.text)) = ts.map (fun t => (t.kind, t.text)) := by
  have hcomposed : (Text.composed (Text.ofChars cs)).glyphs
      = (cs.map Composition.standsFor).map .ofChar := by
    rw [Text.composed_ofChars, Text.glyphs_ofChars, Composition.ofChars_of_isMark hcs]
  have hwritten : ∀ g ∈ (cs.map Composition.standsFor).map Glyph.ofChar, Written g := by
    intro g hg
    obtain ⟨d, hd, rfl⟩ := List.mem_map.mp hg
    obtain ⟨c, hc, rfl⟩ := List.mem_map.mp hd
    exact ⟨_, Composition.settled_standsFor (hcs c hc), rfl⟩
  have hscan : scanAll .standard {} ((cs.map Composition.standsFor).map .ofChar) = .ok ts :=
    hcomposed ▸ h
  obtain ⟨body, last, rfl, hlast, htext, hbody⟩ := exists_pieces_of_scanAll hscan
  have hrespelled : ∀ t ∈ body, Respelled t.kind t.text := by
    intro t ht
    obtain ⟨pos, g, rest, p, hsuffix, hpiece, htoken⟩ := hbody t ht
    exact respelled_of_piece (fun g hg => hwritten g (hsuffix.subset hg)) hpiece htoken
  obtain ⟨ds, hds, hjoin, hagain⟩ := exists_scanAll_spelling hrespelled
  obtain ⟨again, hscan', hsame⟩ := hagain {}
  refine ⟨again, ?_, ?_⟩
  · have hcanonical : canonicalText (body ++ [last]) = Text.ofChars ds := by
      rw [canonicalText, List.dropLast_concat, hjoin]
    have hglyphs : (Text.composed (Text.ofChars ds)).glyphs = ds.map .ofChar := by
      rw [Text.composed_ofChars, Text.glyphs_ofChars, Composition.ofChars_of_settled hds]
    rw [hcanonical]
    exact (congrArg (scanAll .standard {}) hglyphs).trans hscan'
  · rw [hsame, List.map_append, List.map_singleton, hlast, htext]

/-- The tokens of a source whose canonical text differs from it in letters, signs and length. -/
def streetTokens : List Token :=
  [⟨.ident, "strasse", "Straße", ⟨1, 1⟩, 0⟩, ⟨.assign, "<-", "←", ⟨1, 8⟩, 8⟩,
   ⟨.ident, "infinity", "∞", ⟨1, 10⟩, 12⟩, ⟨.star, "*", "×", ⟨1, 12⟩, 16⟩,
   ⟨.string, "A b", "\"A b\"", ⟨1, 14⟩, 19⟩, ⟨.eof, [], [], ⟨1, 19⟩, 24⟩]

theorem scan_street :
    canonicalText streetTokens = "strasse <- infinity * \"A b\""
      ∧ ∃ again, scan (canonicalText streetTokens) = .ok again
        ∧ again.map (fun t => (t.kind, t.text)) = streetTokens.map (fun t => (t.kind, t.text)) := by
  have hall : ("Straße ← ∞ × \"A b\"".toList.all fun c => !Composition.isMark c) = true := by decide
  have hmarks : ∀ c ∈ "Straße ← ∞ × \"A b\"".toList, Composition.isMark c = false := fun c hc =>
    by simpa using List.all_eq_true.mp hall c hc
  have hscan : scan (Text.ofChars "Straße ← ∞ × \"A b\"".toList) = .ok streetTokens := by
    decide +kernel
  exact ⟨by decide +kernel, scan_canonical hmarks hscan⟩

end PseudoCost.Token
