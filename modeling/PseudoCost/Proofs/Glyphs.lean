import Mathlib.Data.List.Induction
import Mathlib.Tactic.Cases
import Mathlib.Tactic.Ring
import PseudoCost.Text.Glyph

/-!
# Glyphs and the bytes they are read from

The glyph reader is a machine over bytes, and everything here is a step lemma about it and the run
that follows. No byte is lost (`text_glyphs`). A list of glyphs can be cut anywhere, and the bytes
of either part are read as that part (`glyphs_split`): the machine has nothing open at the end of a
glyph. And the newline byte stands for a newline wherever it occurs, since an open character holds
bytes from `0x80` on only and can become no character below `0x80` (`proper_of_mem_glyphs`).
-/

namespace PseudoCost

namespace Glyph

/-! ## One byte -/

/-- What the machine does with a byte, whether or not a character is open. -/
def Step.take (open? : Option Partial) (b : UInt8) : Step :=
  open?.elim (Step.first b) (Step.next · b)

@[simp] theorem readFrom_none_nil : readFrom none [] = [] := rfl

@[simp] theorem readFrom_some_nil (p : Partial) : readFrom (some p) [] = [illFormed p.read] := rfl

theorem readFrom_cons (open? : Option Partial) (b : UInt8) (rest : Text) :
    readFrom open? (b :: rest)
      = (Step.take open? b).done ++ readFrom (Step.take open? b).left rest := by
  cases open? <;> rfl

/-- The bytes of the open character. -/
def openBytes : Option Partial → Text
  | none => []
  | some p => p.read

@[simp] theorem openBytes_none : openBytes none = [] := rfl

@[simp] theorem openBytes_some (p : Partial) : openBytes (some p) = p.read := rfl

/-- What is known of an open character: it has bytes, none below `0x80`, and whatever bytes of the
ranges follow, its code will be no smaller than `0x80`. -/
structure Partial.Open (p : Partial) : Prop where
  read_ne_nil : p.read ≠ []
  read_high : ∀ b ∈ p.read, 0x80 ≤ b
  low_high : 0x80 ≤ p.low
  code_high : 0x80 ≤ (64 * p.code + (p.low.toNat - 0x80)) * 64 ^ p.more

theorem Partial.Open.first {b : UInt8} {code more : Nat} {low high : UInt8} (hb : 0x80 ≤ b)
    (hlow : 0x80 ≤ low) (hcode : 0x80 ≤ (64 * code + (low.toNat - 0x80)) * 64 ^ more) :
    Partial.Open ⟨[b], code, more, low, high⟩ where
  read_ne_nil := by simp
  read_high := by simpa using hb
  low_high := hlow
  code_high := hcode

/-- A lead byte whose own bits, those above `base`, are not all zero. -/
theorem Partial.Open.lead {b high : UInt8} {base more : Nat} (least : Nat)
    (hleast : base + least ≤ b.toNat) (hb : 0x80 ≤ b) (hcode : 0x80 ≤ 64 * least * 64 ^ more) :
    Partial.Open ⟨[b], b.toNat - base, more, 0x80, high⟩ := by
  refine .first hb (by decide) (hcode.trans (Nat.mul_le_mul_right _ ?_))
  omega

/-- Everything the first byte of a character can do. -/
theorem Step.first_cases (b : UInt8) :
    (b < 0x80 ∧ Step.first b = ⟨[⟨some (Char.ofNat b.toNat), [b]⟩], none⟩)
      ∨ (0x80 ≤ b ∧ Step.first b = ⟨[illFormed [b]], none⟩)
      ∨ ∃ p : Partial, p.Open ∧ p.read = [b] ∧ Step.first b = ⟨[], some p⟩ := by
  have hlt : ∀ {c : UInt8}, ¬ b < c → ¬ b = c → c.toNat + 1 ≤ b.toNat := fun hle hne =>
    Nat.lt_of_le_of_ne (UInt8.not_lt.mp hle) fun heq => hne (UInt8.toNat_inj.mp heq.symm)
  by_cases hlow : b < 0x80
  · exact .inl ⟨hlow, by rw [Step.first, if_pos hlow]⟩
  have hb : 0x80 ≤ b := UInt8.not_lt.mp hlow
  right
  rw [Step.first, if_neg hlow]
  split
  · exact .inl ⟨hb, rfl⟩
  rename_i hC2
  split
  · exact .inr ⟨_, .lead 2 (UInt8.not_lt.mp hC2) hb (by decide), rfl, rfl⟩
  rename_i hE0
  split
  · exact .inr ⟨_, .first hb (by decide) (by decide), rfl, rfl⟩
  rename_i hE0'
  split
  · exact .inr ⟨_, .first hb (by decide) (by decide), rfl, rfl⟩
  split
  · exact .inr ⟨_, .lead 1 (hlt hE0 hE0') hb (by decide), rfl, rfl⟩
  rename_i hF0
  split
  · exact .inr ⟨_, .first hb (by decide) (by decide), rfl, rfl⟩
  rename_i hF0'
  split
  · exact .inr ⟨_, .lead 1 (hlt hF0 hF0') hb (by decide), rfl, rfl⟩
  split
  · exact .inr ⟨_, .first hb (by decide) (by decide), rfl, rfl⟩
  · exact .inl ⟨hb, rfl⟩

theorem ofNat_eq_newline_iff (n : Nat) : Char.ofNat n = '\n' ↔ n = 10 := by
  refine ⟨fun h => ?_, fun h => by rw [h]⟩
  have hcode : (Char.ofNat n).toNat = 10 := by rw [h]; rfl
  by_cases hvalid : n.isValidChar
  · rw [Char.ofNat, dif_pos hvalid] at hcode
    exact hcode
  · rw [Char.ofNat, dif_neg hvalid] at hcode
    cases hcode

/-- Everything a byte after an open character can do. -/
theorem Step.next_cases {p : Partial} (hp : p.Open) (b : UInt8) :
    (∃ n : Nat, 0x80 ≤ b ∧ 0x80 ≤ n
        ∧ Step.next p b = ⟨[⟨some (Char.ofNat n), p.read ++ [b]⟩], none⟩)
      ∨ (∃ q : Partial, q.Open ∧ q.read = p.read ++ [b] ∧ Step.next p b = ⟨[], some q⟩)
      ∨ Step.next p b
        = ⟨illFormed p.read :: (Step.first b).done, (Step.first b).left⟩ := by
  rw [Step.next]
  split
  · rename_i hrange
    have hb : 0x80 ≤ b := UInt8.le_trans hp.low_high hrange.1
    have hcode : 0x80 ≤ (64 * p.code + (b.toNat - 0x80)) * 64 ^ p.more := by
      have hle : p.low.toNat ≤ b.toNat := hrange.1
      refine hp.code_high.trans (Nat.mul_le_mul_right _ ?_)
      omega
    obtain ⟨read, code, more, low, high⟩ := p
    cases more with
    | zero =>
        rw [Nat.pow_zero, Nat.mul_one] at hcode
        exact .inl ⟨_, hb, hcode, rfl⟩
    | succ more =>
        refine .inr (.inl ⟨_, ⟨by simp, ?_, UInt8.le_refl _, ?_⟩, rfl, rfl⟩)
        · intro c hc
          rcases List.mem_append.mp hc with hc | hc
          · exact hp.read_high c hc
          · rw [List.mem_singleton.mp hc]
            exact hb
        · refine hcode.trans_eq ?_
          simp only [UInt8.toNat_ofNat, Nat.reducePow, Nat.reduceMod, Nat.sub_self, Nat.add_zero]
          ring
  · exact .inr (.inr rfl)

/-! ## A run over all bytes -/

theorem text_append (gs hs : List Glyph) : text (gs ++ hs) = text gs ++ text hs :=
  List.flatMap_append

@[simp] theorem text_cons (g : Glyph) (gs : List Glyph) : text (g :: gs) = g.bytes ++ text gs := rfl

@[simp] theorem text_nil : text [] = [] := rfl

theorem text_concat (gs : List Glyph) (g : Glyph) : text (gs ++ [g]) = text gs ++ g.bytes := by
  rw [text_append, text_cons, text_nil, List.append_nil]

/-- No character is open, or an open one is as it should be. -/
def Sound (open? : Option Partial) : Prop := ∀ p, open? = some p → p.Open

theorem Sound.none : Sound none := fun _ h => by cases h

theorem Sound.some {p : Partial} (hp : p.Open) : Sound (some p) := fun _ h => by cases h; exact hp

/-- A glyph has bytes, and the newline byte is among them only if it is a newline. -/
structure Proper (g : Glyph) : Prop where
  bytes_ne_nil : g.bytes ≠ []
  newline : g.is '\n' = true ∧ g.bytes = [Text.newline]
    ∨ g.is '\n' = false ∧ Text.newline ∉ g.bytes

/-- What one byte of a run does: no byte is lost, and what it completes and leaves open is sound. -/
structure Step.Good (open? : Option Partial) (b : UInt8) (step : Step) : Prop where
  bytes : openBytes open? ++ [b] = text step.done ++ openBytes step.left
  done : ∀ g ∈ step.done, g.Proper
  left : Sound step.left

theorem proper_of_high {c? : Option Char} (hc : c? ≠ some '\n') {bytes : Text} (hne : bytes ≠ [])
    (hhigh : ∀ b ∈ bytes, 0x80 ≤ b) : Proper ⟨c?, bytes⟩ where
  bytes_ne_nil := hne
  newline := by
    refine .inr ⟨by simpa [Glyph.is] using hc, fun hmem => ?_⟩
    exact absurd (hhigh _ hmem) (by decide)

theorem proper_ascii (b : UInt8) : Proper ⟨some (Char.ofNat b.toNat), [b]⟩ where
  bytes_ne_nil := by simp
  newline := by
    by_cases hb : b = Text.newline
    · exact .inl ⟨by rw [hb]; rfl, by rw [hb]⟩
    · refine .inr ⟨?_, by simpa using Ne.symm hb⟩
      have hne : b.toNat ≠ 10 := fun h => hb (UInt8.toNat_inj.mp h)
      simpa [Glyph.is, ofNat_eq_newline_iff] using hne

theorem Step.first_good (b : UInt8) : Step.Good none b (Step.first b) := by
  obtain ⟨-, heq⟩ | ⟨hb, heq⟩ | ⟨p, hp, hread, heq⟩ := Step.first_cases b
  · rw [heq]
    refine ⟨rfl, fun g hg => ?_, .none⟩
    rw [List.mem_singleton.mp hg]
    exact proper_ascii b
  · rw [heq]
    refine ⟨rfl, fun g hg => ?_, .none⟩
    rw [List.mem_singleton.mp hg]
    exact proper_of_high (by simp) (by simp) (by simpa using hb)
  · rw [heq]
    exact ⟨by simp [hread], by simp, .some hp⟩

theorem Partial.Open.proper_illFormed {p : Partial} (hp : p.Open) : (illFormed p.read).Proper :=
  proper_of_high (by simp) hp.read_ne_nil hp.read_high

theorem Step.next_good {p : Partial} (hp : p.Open) (b : UInt8) :
    Step.Good (some p) b (Step.next p b) := by
  obtain ⟨n, hb, hn, heq⟩ | ⟨q, hq, hread, heq⟩ | heq := Step.next_cases hp b
  · have hne : some (Char.ofNat n) ≠ some '\n' := by
      rw [ne_eq, Option.some_inj, ofNat_eq_newline_iff]
      omega
    rw [heq]
    refine ⟨by simp, fun g hg => ?_, .none⟩
    rw [List.mem_singleton.mp hg]
    refine proper_of_high hne (by simp) fun d hd => ?_
    rcases List.mem_append.mp hd with hd | hd
    · exact hp.read_high d hd
    · rw [List.mem_singleton.mp hd]
      exact hb
  · rw [heq]
    exact ⟨by simp [hread], by simp, .some hq⟩
  · have hfirst := Step.first_good b
    rw [heq]
    refine ⟨?_, fun g hg => ?_, hfirst.left⟩
    · have hbytes : [b] = text (Step.first b).done ++ openBytes (Step.first b).left := hfirst.bytes
      simp [illFormed, ← hbytes]
    · rcases List.mem_cons.mp hg with rfl | hg
      · exact hp.proper_illFormed
      · exact hfirst.done g hg

/-- Every byte of a sound run is a good step. -/
theorem Step.take_good {open? : Option Partial} (hopen : Sound open?) (b : UInt8) :
    Step.Good open? b (Step.take open? b) := by
  cases open? with
  | none => exact Step.first_good b
  | some p => exact Step.next_good (hopen p rfl) b

theorem text_readFrom {open? : Option Partial} (hopen : Sound open?) (t : Text) :
    text (readFrom open? t) = openBytes open? ++ t := by
  induction t generalizing open? with
  | nil => cases open? <;> simp [illFormed]
  | cons b t ih =>
      have hgood := Step.take_good hopen b
      rw [readFrom_cons, text_append, ih hgood.left, ← List.append_assoc, ← hgood.bytes,
        List.append_assoc, List.singleton_append]

theorem proper_readFrom {open? : Option Partial} (hopen : Sound open?) (t : Text) :
    ∀ g ∈ readFrom open? t, g.Proper := by
  induction t generalizing open? with
  | nil =>
      cases open? with
      | none => simp
      | some p => simpa using (hopen p rfl).proper_illFormed
  | cons b t ih =>
      have hgood := Step.take_good hopen b
      intro g hg
      rw [readFrom_cons] at hg
      rcases List.mem_append.mp hg with hg | hg
      · exact hgood.done g hg
      · exact ih hgood.left g hg

/-! ## Cutting between glyphs -/

/-- A run whose glyphs are cut after the first one or later can be cut there: what comes before
ends the open character, and what comes after starts with none. -/
def Cuts (open? : Option Partial) (t : Text) : Prop :=
  ∀ pre post, pre ≠ [] → readFrom open? t = pre ++ post →
    ∃ u v, t = u ++ v ∧ readFrom open? u = pre ∧ readFrom none v = post

/-- A byte that completes one glyph. -/
theorem Cuts.complete {open? : Option Partial} {b : UInt8} {t : Text} {g : Glyph}
    (hb : Step.take open? b = ⟨[g], none⟩) (ht : Cuts none t) : Cuts open? (b :: t) := by
  have hread : ∀ w, readFrom open? (b :: w) = g :: readFrom none w := fun w => by
    rw [readFrom_cons, hb]
    rfl
  intro pre post hpre h
  rw [hread] at h
  cases pre with
  | nil => exact absurd rfl hpre
  | cons first pre =>
      obtain ⟨rfl, hrest⟩ := List.cons.inj h
      cases pre with
      | nil => exact ⟨[b], t, rfl, hread [], hrest⟩
      | cons second pre =>
          obtain ⟨u, v, rfl, hu, hv⟩ := ht _ post (List.cons_ne_nil second pre) hrest
          exact ⟨b :: u, v, rfl, by rw [hread, hu], hv⟩

/-- A byte that leaves a character open. -/
theorem Cuts.continue {open? : Option Partial} {b : UInt8} {t : Text} {p : Partial}
    (hb : Step.take open? b = ⟨[], some p⟩) (ht : Cuts (some p) t) : Cuts open? (b :: t) := by
  have hread : ∀ w, readFrom open? (b :: w) = readFrom (some p) w := fun w => by
    rw [readFrom_cons, hb]
    rfl
  intro pre post hpre h
  rw [hread] at h
  obtain ⟨u, v, rfl, hu, hv⟩ := ht pre post hpre h
  exact ⟨b :: u, v, rfl, by rw [hread, hu], hv⟩

/-- A byte that closes an open character and starts again. -/
theorem Cuts.restart {p : Partial} {b : UInt8} {t : Text}
    (hb : Step.next p b = ⟨illFormed p.read :: (Step.first b).done, (Step.first b).left⟩)
    (ht : Cuts none (b :: t)) : Cuts (some p) (b :: t) := by
  have hread : ∀ w, readFrom (some p) (b :: w) = illFormed p.read :: readFrom none (b :: w) :=
    fun w => by
      rw [readFrom_cons, readFrom_cons, show Step.take (some p) b = _ from hb]
      rfl
  intro pre post hpre h
  rw [hread] at h
  cases pre with
  | nil => exact absurd rfl hpre
  | cons first pre =>
      obtain ⟨rfl, hrest⟩ := List.cons.inj h
      cases pre with
      | nil => exact ⟨[], b :: t, rfl, rfl, hrest⟩
      | cons second pre =>
          obtain ⟨u, v, hsplit, hu, hv⟩ := ht _ post (List.cons_ne_nil second pre) hrest
          cases u with
          | nil => cases hu
          | cons c u =>
              obtain ⟨rfl, rfl⟩ := List.cons.inj hsplit
              exact ⟨b :: u, v, rfl, by rw [hread, hu], hv⟩

theorem cuts {open? : Option Partial} (hopen : Sound open?) (t : Text) : Cuts open? t := by
  induction t generalizing open? with
  | nil =>
      intro pre post hpre h
      cases open? with
      | none => exact absurd (List.append_eq_nil_iff.mp h.symm).1 hpre
      | some p =>
          rcases List.append_eq_singleton_iff.mp h.symm with ⟨hnil, -⟩ | ⟨hp, hpost⟩
          · exact absurd hnil hpre
          · exact ⟨[], [], rfl, hp.symm, hpost.symm⟩
  | cons b t ih =>
      have hfirst : Cuts none (b :: t) := by
        obtain ⟨-, heq⟩ | ⟨-, heq⟩ | ⟨p, hp, -, heq⟩ := Step.first_cases b
        · exact .complete heq (ih .none)
        · exact .complete heq (ih .none)
        · exact .continue heq (ih (.some hp))
      cases open? with
      | none => exact hfirst
      | some p =>
          obtain ⟨c, -, -, heq⟩ | ⟨q, hq, -, heq⟩ | heq := Step.next_cases (hopen p rfl) b
          · exact .complete heq (ih .none)
          · exact .continue heq (ih (.some hq))
          · exact .restart heq hfirst

end Glyph

/-! ## The glyphs of a text -/

namespace Text

/-- No byte is lost. -/
@[simp] theorem text_glyphs (t : Text) : Glyph.text t.glyphs = t :=
  Glyph.text_readFrom .none t

theorem proper_of_mem_glyphs {t : Text} {g : Glyph} (hg : g ∈ t.glyphs) : g.Proper :=
  Glyph.proper_readFrom .none t g hg

/-- The parts of a list of glyphs are what the parts of the text are read as. -/
theorem glyphs_split {t : Text} {pre post : List Glyph} (h : t.glyphs = pre ++ post) :
    (Glyph.text pre).glyphs = pre ∧ (Glyph.text post).glyphs = post := by
  cases pre with
  | nil =>
      rw [List.nil_append] at h
      exact ⟨rfl, by rw [← h, text_glyphs]⟩
  | cons g pre =>
      obtain ⟨u, v, -, hu, hv⟩ := Glyph.cuts .none t _ post (List.cons_ne_nil g pre) h
      have hu' : u.glyphs = g :: pre := hu
      have hv' : v.glyphs = post := hv
      exact ⟨by rw [← hu', text_glyphs], by rw [← hv', text_glyphs]⟩

end Text

end PseudoCost
