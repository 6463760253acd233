import IrafCl.Library.Validator
import IrafCl.Param.Defaults
import IrafCl.Param.List
import IrafCl.Proofs.Text.Returns

/-!
# Messages about variables

A message about a default or about two lists that differ shows names, types and the texts of values as they are, and
everything else as numbers or quoted. So it has a carriage return only if one of those has (`Variable.Plain`).
-/

namespace IrafCl

open Bytes

/-! ## Values -/

namespace Value

/-- Only a text can show a carriage return. -/
theorem noReturn_text {v : Value} (h : ∀ s, v = .string s → NoReturn s) : NoReturn v.text := by
  cases v with
  | none => exact List.not_mem_nil
  | int n => exact noReturn_ofInt n.toInt
  | float x => exact x.noReturn_text
  | string s => exact h s rfl
  | bool b => cases b <;> decide
  | undefined => exact (show NoReturn "INDEF" by decide)
  | unknown => exact List.not_mem_nil

/-- What a value is coerced to has the text of the value, if it is a text. -/
theorem eq_text_of_coerce? {cls : TypeClass} {v : Value} {s : Bytes} (h : coerce? cls v = some (.string s)) : s = v.text := by
  cases v with
  | string t =>
    cases cls with
    | int =>
      simp only [coerce?] at h
      split at h
      · cases h
      · obtain ⟨n, -, heq⟩ := Option.map_eq_some_iff.mp h
        cases heq
    | float =>
      simp only [coerce?] at h
      split at h
      · cases h
      · obtain ⟨x, -, heq⟩ := Option.map_eq_some_iff.mp h
        cases heq
    | bool =>
      obtain ⟨b, -, heq⟩ := Option.map_eq_some_iff.mp h
      cases heq
    | string => cases h; rfl
    | any => cases h; rfl
  | float x =>
    cases cls with
    | int =>
      simp only [coerce?] at h
      split at h
      · cases h
      · cases h
    | _ => cases h <;> rfl
  | _ => cases cls <;> cases h <;> rfl

theorem noReturn_convert {type : Bytes} {v w : Value} (hv : NoReturn v.text) (h : v.convert type = .ok w) : NoReturn w.text := by
  refine noReturn_text fun s heq => ?_
  subst heq
  unfold convert at h
  split at h
  · next hcoerce =>
    cases h
    rw [eq_text_of_coerce? hcoerce]
    exact hv
  · cases h

end Value

/-! ## Constraints -/

namespace Schema

variable {s : Schema} {v : Value} {message : Bytes}

theorem noReturn_choiceMessage (choices : List Bytes) : NoReturn (choiceMessage choices) := by
  unfold choiceMessage
  split
  · exact (show NoReturn "value must be " by decide).append (noReturn_quote _)
  · refine (show NoReturn "value must be one of " by decide).append (noReturn_join ?_ (by decide))
    intro part hpart
    obtain ⟨choice, -, rfl⟩ := List.mem_map.mp hpart
    exact noReturn_quote _

/-- The message about a bound that a number breaks. -/
theorem noReturn_outside (hv : NoReturn v.text) {limit : Option Value} {broken : Value → Bool} {relation : Bytes}
    (hrelation : NoReturn relation)
    (h : (match limit with
      | some b => if broken b then some ("must be " ++ relation ++ " " ++ b.asFloat.text ++ " but found " ++ v.text) else none
      | none => none) = some message) : NoReturn message := by
  split at h
  · next b =>
    split at h
    · cases h
      have hmust : NoReturn "must be " := by decide
      have hspace : NoReturn " " := by decide
      have hfound : NoReturn " but found " := by decide
      exact ((((hmust.append hrelation).append hspace).append b.asFloat.noReturn_text).append hfound).append hv
    · cases h
  · cases h

theorem noReturn_detail? (hv : NoReturn v.text) (h : s.detail? v = some message) : NoReturn message := by
  have hleast : NoReturn ">=" := by decide
  have hgreatest : NoReturn "<=" := by decide
  unfold detail? at h
  dsimp only at h
  rcases Option.or_eq_some_iff.mp h with h | ⟨-, h⟩
  · -- the choices
    split at h
    · split at h
      · cases h
      · cases h
        exact noReturn_choiceMessage s.choices
    · cases h
  rcases Option.or_eq_some_iff.mp h with h | ⟨-, h⟩
  · -- the length
    split at h
    · split at h
      · cases h
        have hlength : NoReturn "length must be <= " := by decide
        have hgot : NoReturn ", but got " := by decide
        exact ((hlength.append (noReturn_ofInt _)).append hgot).append (noReturn_ofNat _)
      · cases h
    · cases h
  rcases Option.or_eq_some_iff.mp h with h | ⟨-, h⟩
  · split at h
    · exact noReturn_outside hv hleast h
    · cases h
  · split at h
    · exact noReturn_outside hv hgreatest h
    · cases h

theorem noReturn_violation? (hv : NoReturn v.text) (h : s.violation? v = some message) : NoReturn message := by
  unfold violation? at h
  split at h
  · cases h
  · next base _ =>
    split at h
    · exact noReturn_detail? hv h
    · cases h
      have hbase : NoReturn base.name := by cases base <;> decide
      have hshown : NoReturn (shown v) := by
        unfold shown
        split <;> decide
      have hexpected : NoReturn "expected " := by decide
      have hgot : NoReturn ", but got " := by decide
      exact ((hexpected.append hbase).append hgot).append hshown

end Schema

/-- The validator gives no reason with a carriage return against a value that shows none. -/
def Library.IsPlain [Library] : Prop :=
  ∀ (s : Schema) (v : Value) (found : Mismatch), NoReturn v.text → Library.mismatch? s v = some found →
    NoReturn found.reason

/-! ## Variables -/

/-- What messages show of a variable has no carriage return. -/
structure Variable.Plain (v : Variable) : Prop where
  name : NoReturn v.name
  type : NoReturn v.type
  values : ∀ value ∈ v.values, NoReturn value.text

namespace Variable

variable {v w : Variable}

theorem Plain.elementName (h : v.Plain) (i : Nat) : NoReturn (v.elementName i) := by
  unfold Variable.elementName
  split
  · have hopen : NoReturn "[" := by decide
    have hclose : NoReturn "]" := by decide
    exact ((h.name.append hopen).append (noReturn_ofNat _)).append hclose
  · exact h.name

theorem Plain.checkElement [Library] (hlibrary : Library.IsPlain) (h : v.Plain) {s : Schema} {value : Value}
    (hvalue : NoReturn value.text) (i : Nat) : ∀ message ∈ v.checkElement s value i, NoReturn message := by
  unfold Variable.checkElement
  split
  · exact List.forall_mem_nil _
  split
  · exact List.forall_mem_nil _
  · next found hfound =>
    rw [List.forall_mem_singleton]
    have hdefault : NoReturn "default value " := by decide
    have hof : NoReturn " of '" := by decide
    have hinvalid : NoReturn "' is invalid: " := by decide
    exact ((((hdefault.append hvalue).append hof).append (h.elementName i)).append hinvalid).append
      (hlibrary s value found hvalue hfound)

/-- Messages about defaults have no carriage return unless the variable shows one. -/
theorem Plain.checkDefaults [Library] (hlibrary : Library.IsPlain) (h : v.Plain) {messages : List Bytes}
    (hmessages : v.checkDefaults = .ok messages) : ∀ message ∈ messages, NoReturn message := by
  unfold Variable.checkDefaults at hmessages
  dsimp only at hmessages
  split at hmessages
  · cases hmessages
    exact List.forall_mem_nil _
  split at hmessages
  · cases hmessages
  · cases hmessages
    intro message hmessage
    obtain ⟨⟨value, i⟩, hmem, hmessage⟩ := List.mem_flatMap.mp hmessage
    exact h.checkElement hlibrary (h.values value (List.fst_mem_of_mem_zipIdx hmem)) i message hmessage

theorem noReturn_valuesText {vs : List Value} (h : ∀ value ∈ vs, NoReturn value.text) : NoReturn (valuesText vs) := by
  refine noReturn_join (fun part hpart => ?_) (by decide)
  obtain ⟨value, hvalue, rfl⟩ := List.mem_map.mp hpart
  exact h value hvalue

/-- How two variables differ is shown without a carriage return unless one of them shows one. -/
theorem Plain.diff (hv : v.Plain) (hw : w.Plain) : ∀ message ∈ v.diff w, NoReturn message := by
  have hvs : NoReturn " vs " := by decide
  have entry {differs : Bool} {text : Bytes} (h : NoReturn text) :
      ∀ message ∈ (if differs then [text] else []), NoReturn message := by
    split
    · rwa [List.forall_mem_singleton]
    · exact List.forall_mem_nil _
  have flag (b : Bool) : NoReturn (flagText b) := by cases b <;> decide
  unfold Variable.diff
  simp only [List.forall_mem_append]
  refine ⟨⟨⟨⟨entry ?_, entry ?_⟩, entry ?_⟩, entry ?_⟩, entry ?_⟩
  · exact (((show NoReturn "type " by decide).append hv.type).append hvs).append hw.type
  · exact (((show NoReturn "mode " by decide).append (noReturn_quote _)).append hvs).append (noReturn_quote _)
  · exact (((show NoReturn "array size " by decide).append (noReturn_ofInt _)).append hvs).append (noReturn_ofInt _)
  · exact (((show NoReturn "list flag " by decide).append (flag _)).append hvs).append (flag _)
  · have hopen : NoReturn "value [" := by decide
    have hbetween : NoReturn "] vs [" := by decide
    exact (((hopen.append (noReturn_valuesText hv.values)).append hbetween).append (noReturn_valuesText hw.values)).append
      (by decide)

end Variable

/-- So are the differences between two lists. -/
theorem ParamList.noReturn_compare {p q : ParamList} (hp : ∀ v ∈ p.vars, v.Plain) (hq : ∀ v ∈ q.vars, v.Plain) :
    ∀ message ∈ p.compare q, NoReturn message := by
  have hparameter : NoReturn "parameter '" := by decide
  unfold compare
  rw [List.forall_mem_append]
  refine ⟨fun message hmessage => ?_, fun message hmessage => ?_⟩
  · obtain ⟨v, hv, hmessage⟩ := List.mem_flatMap.mp hmessage
    unfold compareOne at hmessage
    split at hmessage
    · rw [List.mem_singleton.mp hmessage]
      exact (hparameter.append (hp v hv).name).append (by decide)
    · next w hw =>
      obtain ⟨d, hd, rfl⟩ := List.mem_map.mp hmessage
      have hdiffers : NoReturn "' differs: " := by decide
      exact ((hparameter.append (hp v hv).name).append hdiffers).append
        ((hp v hv).diff (hq w (List.mem_of_find?_eq_some hw)) d hd)
  · obtain ⟨w, hw, rfl⟩ := List.mem_map.mp hmessage
    exact (hparameter.append (hq w (List.mem_of_mem_filter hw)).name).append (by decide)

end IrafCl
