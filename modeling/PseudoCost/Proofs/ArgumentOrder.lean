import Mathlib
import PseudoCost.CommandLine

/-!
# The order of the arguments

Arguments are applied to one record, one after another, and the first that is refused ends the
reading. What arguments that are all applied leave behind can be said at once (`Options.after`): a
flag is set if it occurs, a value is the last one given, and inputs are collected. All of that but
the last values and the order of the inputs is the same for every order of the arguments.

Arguments that are accepted as a whole leave little room for the rest: they name at most one input,
and never both formats, so the last format is the only one. What remains are the options that carry
a value, and they are kept in order among those with the same key (`Rearranged`). Hence options
commute (`ofArgs_commutes`).

Whether or not the arguments are accepted, every option in force has passed its own check
(`Options.InRange`).
-/

namespace PseudoCost.CommandLine

/-! ## What an argument sets -/

/-- The argument that ends the options. -/
def endMark : Text := "--"

/-- The beginnings of the arguments that carry a value. An argument with any other key is refused,
so it occurs among no arguments that are accepted. -/
def keys : List Text := ["--tree-depth=", "--color=", "--diag-context="]

namespace Argument

/-- The key of an argument that carries a value. -/
def key? : Argument → Option Text
  | .treeDepth _ => some "--tree-depth="
  | .color _ => some "--color="
  | .context _ => some "--diag-context="
  | _ => none

/-- The depth of the recursion tree that an argument sets. -/
def depth? : Argument → Option Int
  | .treeDepth value => (CommandLine.depth value).toOption
  | _ => none

/-- The colour mode that an argument sets. -/
def color? : Argument → Option ColorMode
  | .color value => (CommandLine.color value).toOption
  | _ => none

/-- The number of lines of context that an argument sets. -/
def context? : Argument → Option Int
  | .context value => ((integer "--diag-context" value).toOption).map (max · 0)
  | _ => none

/-- The form of the report that an argument sets. -/
def format? : Argument → Option Format
  | .json => some .json
  | .text => some .text
  | _ => none

/-- The input that an argument names. -/
def input? : Argument → Option Text
  | .input path => some path
  | _ => none

/-- Whether an argument can be applied. -/
def admissible : Argument → Bool
  | .unknown _ => false
  | .treeDepth value => (CommandLine.depth value).isOk
  | .color value => (CommandLine.color value).isOk
  | .context value => (integer "--diag-context" value).isOk
  | _ => true

theorem key?_of_depth? (a : Argument) (h : a.depth? ≠ none) : a.key? = some "--tree-depth=" := by
  cases a with
  | treeDepth => rfl
  | _ => exact absurd rfl h

theorem key?_of_color? (a : Argument) (h : a.color? ≠ none) : a.key? = some "--color=" := by
  cases a with
  | color => rfl
  | _ => exact absurd rfl h

theorem key?_of_context? (a : Argument) (h : a.context? ≠ none) :
    a.key? = some "--diag-context=" := by
  cases a with
  | context => rfl
  | _ => exact absurd rfl h

theorem mem_of_format {as : List Argument} {f : Format} (h : f ∈ as.filterMap format?) :
    f = .json ∧ .json ∈ as ∨ f = .text ∧ .text ∈ as := by
  obtain ⟨a, ha, hf⟩ := List.mem_filterMap.mp h
  cases a with
  | json =>
      cases hf
      exact Or.inl ⟨rfl, ha⟩
  | text =>
      cases hf
      exact Or.inr ⟨rfl, ha⟩
  | _ => cases hf

/-- An argument stands for itself, carries a value, or is told apart by its first byte. -/
theorem ofText_cases (t : Text) :
    (t, ofText t) ∈ words ∨ valued? t = some (ofText t) ∨ ofText t = .unknown t
      ∨ ofText t = .input t := by
  rw [ofText]
  cases hword : words.lookup t with
  | some a =>
      obtain ⟨before, rest, hwords, -⟩ := List.lookup_eq_some_iff.mp hword
      exact Or.inl (by rw [hwords]; exact List.mem_append_right _ List.mem_cons_self)
  | none =>
      cases hvalued : valued? t with
      | some a => exact Or.inr (Or.inl rfl)
      | none =>
          refine Or.inr (Or.inr ?_)
          cases hlooks : looksLikeOption t with
          | true => exact Or.inl rfl
          | false => exact Or.inr rfl

theorem key?_of_mem_words {t : Text} {a : Argument} (h : (t, a) ∈ words) : a.key? = none := by
  have hwords : ∀ p ∈ words, p.2.key? = none := by simp [words, key?]
  exact hwords _ h

/-- An argument that carries a value begins with its key. -/
theorem isPrefixOf_of_valued {t : Text} {a : Argument} (h : valued? t = some a) :
    ∃ key, a.key? = some key ∧ key.isPrefixOf t = true := by
  simp only [valued?, Option.or_eq_some_iff, Option.map_eq_some_iff] at h
  have hprefix {key value : Text} (hvalue : after? key t = some value) :
      key.isPrefixOf t = true := by
    rw [after?] at hvalue
    split at hvalue
    · assumption
    · cases hvalue
  rcases h with ⟨value, hvalue, rfl⟩ | ⟨-, ⟨value, hvalue, rfl⟩ | ⟨-, value, hvalue, rfl⟩⟩
  · exact ⟨_, rfl, hprefix hvalue⟩
  · exact ⟨_, rfl, hprefix hvalue⟩
  · exact ⟨_, rfl, hprefix hvalue⟩

theorem isPrefixOf_of_key? {t key : Text} (h : (ofText t).key? = some key) :
    key.isPrefixOf t = true := by
  rcases ofText_cases t with hword | hvalued | hunknown | hinput
  · rw [key?_of_mem_words hword] at h
    cases h
  · obtain ⟨own, hown, hprefix⟩ := isPrefixOf_of_valued hvalued
    rw [h, Option.some.injEq] at hown
    rwa [hown]
  · rw [hunknown] at h
    cases h
  · rw [hinput] at h
    cases h

theorem ofText_endMark : ofText endMark = .endOfOptions := by
  rw [ofText, words, endMark, List.lookup_cons, beq_self_eq_true]
  rfl

theorem eq_endMark_of_ofText {t : Text} (h : ofText t = .endOfOptions) : t = endMark := by
  rcases ofText_cases t with hword | hvalued | hunknown | hinput
  · rw [h] at hword
    simpa [words, endMark] using hword
  · obtain ⟨key, hkey, -⟩ := isPrefixOf_of_valued hvalued
    rw [h] at hkey
    cases hkey
  · rw [h] at hunknown
    cases hunknown
  · rw [h] at hinput
    cases hinput

end Argument

/-! ## What arguments leave behind -/

namespace Options

/-- The options after some arguments that are all applied. -/
def after (o : Options) (as : List Argument) : Options where
  showHelp := as.contains .help || o.showHelp
  format := (as.filterMap Argument.format?).getLastD o.format
  jsonRequested := as.contains .json || o.jsonRequested
  textRequested := as.contains .text || o.textRequested
  treeDepth := (as.filterMap Argument.depth?).getLastD o.treeDepth
  noTree := as.contains .noTree || o.noTree
  outline := as.contains .outline || o.outline
  tokens := as.contains .tokens || o.tokens
  metrics := as.contains .metrics || o.metrics
  metricsJson := as.contains .metricsJson || o.metricsJson
  inputs := o.inputs ++ as.filterMap Argument.input?
  color := (as.filterMap Argument.color?).getLastD o.color
  context := (as.filterMap Argument.context?).getLastD o.context

theorem after_nil (o : Options) : o.after [] = o := by
  simp [after]

theorem getLastD_filterMap_cons {α β : Type} (f : α → Option β) (a : α) (as : List α) (d : β) :
    ((a :: as).filterMap f).getLastD d
      = (as.filterMap f).getLastD (([a].filterMap f).getLastD d) := by
  cases h : f a with
  | none => rw [List.filterMap_cons_none h, List.filterMap_cons_none h, List.filterMap_nil,
      List.getLastD_nil]
  | some b => rw [List.filterMap_cons_some h, List.filterMap_cons_some h, List.filterMap_nil,
      List.getLastD_cons, List.getLastD_cons, List.getLastD_nil]

theorem after_cons (o : Options) (a : Argument) (as : List Argument) :
    o.after (a :: as) = (o.after [a]).after as := by
  have hinput : (a :: as).filterMap Argument.input?
      = [a].filterMap Argument.input? ++ as.filterMap Argument.input? :=
    List.filterMap_append (l := [a])
  simp only [after, getLastD_filterMap_cons _ a as, List.contains_cons, List.contains_nil,
    Bool.or_false, Bool.or_assoc, Bool.or_left_comm, hinput, List.append_assoc]

theorem exists_of_isOk {α : Type} {x : Except Refusal α} (h : x.isOk = true) :
    ∃ v, x = .ok v := by
  cases x with
  | ok v => exact ⟨v, rfl⟩
  | error r => cases h

/-- An argument that is admissible sets what it sets. -/
theorem apply_of_admissible (o : Options) {a : Argument} (hend : a ≠ .endOfOptions)
    (ha : a.admissible = true) : o.apply a = .ok (o.after [a]) := by
  have hinputs (h : a.input? = none) : o.inputs ++ [a].filterMap Argument.input? = o.inputs := by
    rw [List.filterMap_cons_none h, List.filterMap_nil, List.append_nil]
  cases a with
  | endOfOptions => exact absurd rfl hend
  | help | json | text | noTree | outline | tokens | metrics | metricsJson =>
      rw [after, hinputs rfl]
      rfl
  | input path => rfl
  | unknown arg => cases ha
  | treeDepth value =>
      obtain ⟨d, hd⟩ := exists_of_isOk ha
      have hdepth : Argument.depth? (.treeDepth value) = some d := by rw [Argument.depth?, hd]; rfl
      rw [after, hinputs rfl, List.filterMap_cons_some hdepth, apply, hd]
      rfl
  | color value =>
      obtain ⟨mode, hmode⟩ := exists_of_isOk ha
      have hcolor : Argument.color? (.color value) = some mode := by
        rw [Argument.color?, hmode]
        rfl
      rw [after, hinputs rfl, List.filterMap_cons_some hcolor, apply, hmode]
      rfl
  | context value =>
      obtain ⟨i, hi⟩ := exists_of_isOk ha
      have hcontext : Argument.context? (.context value) = some (max i 0) := by
        rw [Argument.context?, hi]
        rfl
      rw [after, hinputs rfl, List.filterMap_cons_some hcontext, apply, hi]
      rfl

/-- An argument that is not admissible is refused. -/
theorem apply_of_not_admissible (o : Options) {a : Argument} (ha : a.admissible = false) :
    ∃ r, o.apply a = .error r := by
  have herror {α : Type} {x : Except Refusal α} (hx : x.isOk = false) : ∃ r, x = .error r := by
    cases x with
    | ok v => cases hx
    | error r => exact ⟨r, rfl⟩
  cases a with
  | unknown arg => exact ⟨_, rfl⟩
  | treeDepth value =>
      obtain ⟨r, hr⟩ := herror ha
      exact ⟨r, by rw [apply, hr]; rfl⟩
  | color value =>
      obtain ⟨r, hr⟩ := herror ha
      exact ⟨r, by rw [apply, hr]; rfl⟩
  | context value =>
      obtain ⟨r, hr⟩ := herror ha
      exact ⟨r, by rw [apply, hr]; rfl⟩
  | endOfOptions | help | json | text | noTree | outline | tokens | metrics | metricsJson | input =>
      cases ha

/-! ## Runs -/

theorem applyAll_cons (o : Options) {t : Text} (ht : t ≠ endMark) (rest : List Text) :
    applyAll o (t :: rest) = match o.apply (Argument.ofText t) with
      | .ok o' => applyAll o' rest
      | .error r => (o, some r) := by
  rw [applyAll]
  split
  · rename_i hend
    exact absurd (Argument.eq_endMark_of_ofText hend) ht
  · rfl

/-- Arguments that are all admissible leave behind what they set, wherever more follows. -/
theorem applyAll_append {before : List Text} (hend : endMark ∉ before)
    (hbefore : ∀ t ∈ before, (Argument.ofText t).admissible = true) (o : Options)
    (rest : List Text) :
    applyAll o (before ++ rest) = applyAll (o.after (before.map Argument.ofText)) rest := by
  induction before generalizing o with
  | nil => rw [List.map_nil, after_nil, List.nil_append]
  | cons t before ih =>
      obtain ⟨ht, hrest⟩ := List.forall_mem_cons.mp hbefore
      have hne : t ≠ endMark := fun h => hend (h ▸ List.mem_cons_self)
      have happly := apply_of_admissible o (mt Argument.eq_endMark_of_ofText hne) ht
      rw [List.cons_append, applyAll_cons o hne, happly, List.map_cons,
        after_cons o _ (before.map _)]
      exact ih (fun h => hend (List.mem_cons_of_mem t h)) hrest _

/-- Arguments that are not refused are all admissible. -/
theorem admissible_of_applyAll {before rest : List Text} (hend : endMark ∉ before) {o : Options}
    (h : (applyAll o (before ++ rest)).2 = none) :
    ∀ t ∈ before, (Argument.ofText t).admissible = true := by
  induction before generalizing o with
  | nil => exact fun t ht => by cases ht
  | cons t before ih =>
      have hne : t ≠ endMark := fun h => hend (h ▸ List.mem_cons_self)
      have hrest : endMark ∉ before := fun h => hend (List.mem_cons_of_mem t h)
      rw [List.cons_append, applyAll_cons o hne] at h
      cases ht : (Argument.ofText t).admissible with
      | true =>
          rw [apply_of_admissible o (mt Argument.eq_endMark_of_ofText hne) ht] at h
          exact List.forall_mem_cons.mpr ⟨ht, ih hrest h⟩
      | false =>
          obtain ⟨r, hr⟩ := apply_of_not_admissible o ht
          rw [hr] at h
          cases h

end Options

/-! ## Rearranging arguments -/

/-- The arguments in front of the first one that ends the options. -/
def beforeEnd (args : List Text) : List Text := args.takeWhile (· != endMark)

/-- The arguments from the first one on that ends the options. -/
def fromEnd (args : List Text) : List Text := args.dropWhile (· != endMark)

/-- The same arguments in another order, those with the same key in the same one. -/
structure Rearranged (new old : List Text) : Prop where
  perm : new.Perm old
  keyed : ∀ key ∈ keys, new.filter key.isPrefixOf = old.filter key.isPrefixOf

theorem endMark_not_mem_beforeEnd (args : List Text) : endMark ∉ beforeEnd args := by
  intro h
  simpa using List.mem_takeWhile_imp h

/-- From the end of the options on, everything is an input. -/
theorem applyAll_fromEnd (o : Options) (args : List Text) :
    o.applyAll (fromEnd args) = ({ o with inputs := o.inputs ++ (fromEnd args).tail }, none) := by
  cases h : fromEnd args with
  | nil => simp [Options.applyAll]
  | cons t rest =>
      have ht : t = endMark := by
        have hhead := List.head?_dropWhile_not (· != endMark) args
        rw [fromEnd] at h
        simpa [h] using hhead
      rw [ht, Options.applyAll, Argument.ofText_endMark]
      rfl

theorem eq_of_perm_of_forall_eq {α : Type} {xs ys : List α} (h : xs.Perm ys)
    (hys : ∀ x ∈ ys, ∀ y ∈ ys, x = y) : xs = ys := by
  cases ys with
  | nil => exact h.eq_nil
  | cons y ys =>
      have hall : ∀ x ∈ y :: ys, x = y := fun x hx => hys x hx y List.mem_cons_self
      have hnew : ∀ x ∈ xs, x = y := fun x hx => hall x (h.mem_iff.mp hx)
      rw [List.eq_replicate_of_mem hall, List.eq_replicate_of_mem hnew, h.length_eq]

theorem eq_of_length_le_one {α : Type} {xs : List α} (h : xs.length ≤ 1) :
    ∀ x ∈ xs, ∀ y ∈ xs, x = y := by
  match xs, h with
  | [], _ => exact fun x hx => by cases hx
  | [a], _ => simp

namespace Rearranged

variable {new old : List Text} (h : Rearranged new old)
include h

/-- Values that only arguments with one key set come in the same order. -/
theorem filterMap_eq {β : Type} {f : Argument → Option β} {key : Text} (hkey : key ∈ keys)
    (hf : ∀ a, f a ≠ none → a.key? = some key) :
    (new.map Argument.ofText).filterMap f = (old.map Argument.ofText).filterMap f := by
  have hown (ts : List Text) : (ts.map Argument.ofText).filterMap f
      = (ts.filter key.isPrefixOf).filterMap fun t => f (Argument.ofText t) := by
    rw [List.filterMap_map, List.filterMap_filter]
    refine List.filterMap_congr fun t _ => ?_
    split
    · rfl
    · rename_i hnot
      by_contra hne
      exact hnot (Argument.isPrefixOf_of_key? (hf _ hne))
  rw [hown, hown, h.keyed key hkey]

/-- Arguments that name at most one input and not both formats leave behind the same in any order
that keeps those with the same key in theirs. -/
theorem after_eq (o : Options)
    (hformat : ¬(Argument.json ∈ old.map Argument.ofText ∧ Argument.text ∈ old.map Argument.ofText))
    (hinput : ((old.map Argument.ofText).filterMap Argument.input?).length ≤ 1) :
    o.after (new.map Argument.ofText) = o.after (old.map Argument.ofText) := by
  have hperm := h.perm.map Argument.ofText
  have hformats : (new.map Argument.ofText).filterMap Argument.format?
      = (old.map Argument.ofText).filterMap Argument.format? := by
    refine eq_of_perm_of_forall_eq (hperm.filterMap _) fun x hx y hy => ?_
    rcases Argument.mem_of_format hx with ⟨rfl, hxmem⟩ | ⟨rfl, hxmem⟩ <;>
      rcases Argument.mem_of_format hy with ⟨rfl, hymem⟩ | ⟨rfl, hymem⟩
    · rfl
    · exact absurd ⟨hxmem, hymem⟩ hformat
    · exact absurd ⟨hymem, hxmem⟩ hformat
    · rfl
  have hinputs : (new.map Argument.ofText).filterMap Argument.input?
      = (old.map Argument.ofText).filterMap Argument.input? :=
    eq_of_perm_of_forall_eq (hperm.filterMap _) (eq_of_length_le_one hinput)
  rw [Options.after, Options.after, hformats, hinputs,
    h.filterMap_eq (by simp [keys]) Argument.key?_of_depth?,
    h.filterMap_eq (by simp [keys]) Argument.key?_of_color?,
    h.filterMap_eq (by simp [keys]) Argument.key?_of_context?]
  simp only [hperm.contains_eq]

end Rearranged

/-! ## What options are in force -/

theorem depth_range {value : Text} {d : Int} (h : depth value = .ok d) : 1 ≤ d ∧ d ≤ 12 := by
  rw [depth] at h
  cases hi : integer "--tree-depth" value with
  | error r =>
      rw [hi] at h
      cases h
  | ok i =>
      rw [hi] at h
      change (if i < 1 ∨ 12 < i then _ else Except.ok i) = Except.ok d at h
      split at h
      · cases h
      · cases h
        omega

/-- The options that have a range are in it. -/
structure Options.InRange (o : Options) : Prop where
  one_le_treeDepth : 1 ≤ o.treeDepth
  treeDepth_le : o.treeDepth ≤ 12
  context_nonneg : 0 ≤ o.context

namespace Options.InRange

variable {o o' : Options}

/-- An argument that is applied sets an option within its range, if it has one. -/
theorem apply (ho : o.InRange) {a : Argument} (h : o.apply a = .ok o') : o'.InRange := by
  cases a with
  | treeDepth value =>
      rw [Options.apply] at h
      cases hd : depth value with
      | error r =>
          rw [hd] at h
          cases h
      | ok d =>
          rw [hd] at h
          cases h
          exact ⟨(depth_range hd).1, (depth_range hd).2, ho.context_nonneg⟩
  | color value =>
      rw [Options.apply] at h
      cases hc : CommandLine.color value with
      | error r =>
          rw [hc] at h
          cases h
      | ok mode =>
          rw [hc] at h
          cases h
          exact ⟨ho.one_le_treeDepth, ho.treeDepth_le, ho.context_nonneg⟩
  | context value =>
      rw [Options.apply] at h
      cases hi : integer "--diag-context" value with
      | error r =>
          rw [hi] at h
          cases h
      | ok i =>
          rw [hi] at h
          cases h
          exact ⟨ho.one_le_treeDepth, ho.treeDepth_le, le_max_right i 0⟩
  | unknown arg => cases h
  | endOfOptions | help | json | text | noTree | outline | tokens | metrics | metricsJson | input =>
      cases h
      exact ⟨ho.one_le_treeDepth, ho.treeDepth_le, ho.context_nonneg⟩

/-- Whether or not arguments are all applied, the options stay in range. -/
theorem applyAll (ho : o.InRange) (args : List Text) : (o.applyAll args).1.InRange := by
  induction args generalizing o with
  | nil => exact ho
  | cons t rest ih =>
      rw [Options.applyAll]
      split
      · exact ⟨ho.one_le_treeDepth, ho.treeDepth_le, ho.context_nonneg⟩
      · split
        · rename_i h
          exact ih (ho.apply h)
        · exact ho

end Options.InRange

/-! ## Options commute -/

theorem conflict?_eq_none_iff {o : Options} : o.conflict? = none
    ↔ ¬(o.jsonRequested = true ∧ o.textRequested = true) ∧ o.inputs.length ≤ 1 := by
  rw [Options.conflict?, ← Bool.and_eq_true]
  cases o.jsonRequested && o.textRequested with
  | true => simp
  | false => simp

/-- Accepted arguments name at most one input and not both formats. -/
theorem of_conflict?_eq_none {as : List Argument} {inputs : List Text}
    (h : Options.conflict? { ({} : Options).after as with
      inputs := (({} : Options).after as).inputs ++ inputs } = none) :
    ¬(Argument.json ∈ as ∧ Argument.text ∈ as) ∧ (as.filterMap Argument.input?).length ≤ 1 := by
  obtain ⟨hformat, hinputs⟩ := conflict?_eq_none_iff.mp h
  constructor
  · rintro ⟨hjson, htext⟩
    exact hformat ⟨by simp [Options.after, hjson], by simp [Options.after, htext]⟩
  · simp only [Options.after, List.nil_append, List.length_append] at hinputs
    omega

/-- **Options commute.** Arguments that are accepted leave behind the same options, and are accepted
again, in any order of those before the end of the options that keeps the ones with the same key in
theirs. Whether or not arguments are accepted, the options they leave behind are in range. -/
theorem ofArgs_commutes :
    (∀ args new, (Options.ofArgs args).2 = none → Rearranged new (beforeEnd args) →
        Options.ofArgs (new ++ fromEnd args) = Options.ofArgs args)
      ∧ ∀ args, (Options.ofArgs args).1.InRange := by
  constructor
  · intro args new haccepted hnew
    have hsplit : beforeEnd args ++ fromEnd args = args := List.takeWhile_append_dropWhile
    have hend := endMark_not_mem_beforeEnd args
    have hendNew : endMark ∉ new := mt hnew.perm.mem_iff.mp hend
    obtain ⟨happlied, hconflict⟩ := Option.or_eq_none_iff.mp haccepted
    have hold := Options.admissible_of_applyAll hend (hsplit.symm ▸ happlied)
    have hadmissible : ∀ t ∈ new, (Argument.ofText t).admissible = true :=
      fun t ht => hold t (hnew.perm.mem_iff.mp ht)
    have hrun := Options.applyAll_append hend hold {} (fromEnd args)
    have hrunNew := Options.applyAll_append hendNew hadmissible {} (fromEnd args)
    rw [hsplit, applyAll_fromEnd] at hrun
    rw [hrun] at hconflict
    obtain ⟨hformat, hinput⟩ := of_conflict?_eq_none hconflict
    rw [hnew.after_eq {} hformat hinput, applyAll_fromEnd, ← hrun] at hrunNew
    rw [Options.ofArgs, hrunNew, Options.ofArgs]
  · intro args
    have hstart : ({} : Options).InRange := ⟨by decide, by decide, by decide⟩
    exact hstart.applyAll args

/-- Arguments of every sort, with two colours and an input after the end of the options. -/
def sortArgs : List Text :=
  ["--color=never", "--text", "--tree-depth=3", "--color=always", "--", "-sort.txt"]

/-- The arguments of `sortArgs` before the end of the options, turned round but for the colours. -/
def sortArgsTurned : List Text := ["--tree-depth=3", "--color=never", "--color=always", "--text"]

theorem ofArgs_commutes_sortArgs :
    (Options.ofArgs sortArgs).2 = none ∧ Rearranged sortArgsTurned (beforeEnd sortArgs)
      ∧ Options.ofArgs (sortArgsTurned ++ fromEnd sortArgs) = Options.ofArgs sortArgs := by
  have haccepted : (Options.ofArgs sortArgs).2 = none := by decide +kernel
  have hnew : Rearranged sortArgsTurned (beforeEnd sortArgs) := by
    refine ⟨?_, ?_⟩
    · decide +kernel
    · decide +kernel
  exact ⟨haccepted, hnew, ofArgs_commutes.1 _ _ haccepted hnew⟩

end PseudoCost.CommandLine
