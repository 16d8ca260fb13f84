import Mathlib
import HostSheet.Command.Run

set_option autoImplicit false

/-!
# Documents under one line

Two documents have the same keys, with values of the same types, and differ only where the line
has a setting of its own (`Overrides.HidesIn`).  They are read key by key, and each key keeps what
the line makes of the options the same (`Hides.setKey`, `HidesIn.setKey`).  So both documents hold
a configuration or neither does, and under the line it is the same one (`tallies_ofDocument`).
Only the check of the options may still tell them apart (`tallies_parse`).
-/

namespace HostSheet

/-! ## Two results -/

/-- Both fail, or both succeed with results in the relation. -/
inductive Tallies {ε α : Type} (R : α → α → Prop) : Except ε α → Except ε α → Prop
  | ok {a b : α} (h : R a b) : Tallies R (.ok a) (.ok b)
  | error (e f : ε) : Tallies R (.error e) (.error f)

namespace Tallies

variable {ε α β : Type} {R : α → α → Prop} {S : β → β → Prop}

theorem bind {x y : Except ε α} {f g : α → Except ε β} (h : Tallies R x y)
    (hfg : ∀ a b, R a b → Tallies S (f a) (g b)) : Tallies S (x >>= f) (y >>= g) := by
  cases h with
  | ok h => exact hfg _ _ h
  | error e f => exact .error e f

theorem same_bind (x : Except ε α) {f g : α → Except ε β} (h : ∀ a, Tallies S (f a) (g a)) :
    Tallies S (x >>= f) (x >>= g) := by
  cases x with
  | ok a => exact h a
  | error e => exact .error e e

/-- What every step keeps, all steps together keep. -/
theorem foldlM {f : α → β → Except ε α} {xs ys : List β}
    (hstep : ∀ a b x y, R a b → S x y → Tallies R (f a x) (f b y)) (h : List.Forall₂ S xs ys)
    {a b : α} (hab : R a b) : Tallies R (xs.foldlM f a) (ys.foldlM f b) := by
  induction h generalizing a b with
  | nil => exact .ok hab
  | cons hxy _ ih =>
    rw [List.foldlM_cons, List.foldlM_cons]
    exact (hstep _ _ _ _ hab hxy).bind fun _ _ => ih

end Tallies

namespace Command.Overrides

open Toml (Value Entries)

variable {v : Overrides} {o p : Options}

/-! ## Options -/

/-- The line makes the same of both options. -/
def Equates (v : Overrides) (o p : Options) : Prop := v.apply o = v.apply p

namespace Equates

theorem hostTag (h : v.Equates o p) {s t : Text} (hst : v.hostTag = none → s = t) :
    v.Equates { o with hostTag := s } { p with hostTag := t } := by
  simp only [Equates, apply, Options.mk.injEq] at h ⊢
  refine ⟨?_, h.2⟩
  cases htag : v.hostTag with
  | none => exact hst htag
  | some tag => rfl

theorem layerName (h : v.Equates o p) {s t : Option Text} (hst : v.layerName = none → s = t) :
    v.Equates { o with layerName := s } { p with layerName := t } := by
  simp only [Equates, apply, Options.mk.injEq] at h ⊢
  refine ⟨h.1, ?_, h.2.2⟩
  cases hname : v.layerName with
  | none => exact hst hname
  | some name => rfl

theorem dataAttributes (h : v.Equates o p) {s t : Bool} (hst : v.dataAttributes = false → s = t) :
    v.Equates { o with dataAttributes := s } { p with dataAttributes := t } := by
  simp only [Equates, apply, Options.mk.injEq] at h ⊢
  refine ⟨h.1, h.2.1, ?_, h.2.2.2⟩
  cases hdata : v.dataAttributes with
  | false => exact hst hdata
  | true => rfl

theorem excludeFromData (h : v.Equates o p) {s t : Option (List Text)}
    (hst : v.exclude = [] → s = t) :
    v.Equates { o with excludeFromData := s } { p with excludeFromData := t } := by
  simp only [Equates, apply, Options.mk.injEq] at h ⊢
  refine ⟨h.1, h.2.1, h.2.2.1, ?_⟩
  by_cases hexclude : v.exclude = []
  · rw [if_pos hexclude, if_pos hexclude, hst hexclude]
  · rw [if_neg hexclude, if_neg hexclude]

/-- The same key with the same value. -/
theorem setKey (h : v.Equates o p) (key : Text) (x : Value) :
    Tallies v.Equates (o.setKey key x) (p.setKey key x) := by
  unfold Options.setKey
  by_cases htag : key = "host_tag".toList
  · simp only [if_pos htag]
    exact .same_bind _ fun _ => .ok (h.hostTag fun _ => rfl)
  by_cases hlayer : key = "layer".toList
  · simp only [if_neg htag, if_pos hlayer]
    exact .same_bind _ fun _ => .ok (h.layerName fun _ => rfl)
  by_cases hdata : key = "data_attributes".toList
  · simp only [if_neg htag, if_neg hlayer, if_pos hdata]
    exact .same_bind _ fun _ => .ok (h.dataAttributes fun _ => rfl)
  by_cases hexclude : key = "exclude_from_data".toList
  · simp only [if_neg htag, if_neg hlayer, if_neg hdata, if_pos hexclude]
    exact .same_bind _ fun _ => .ok (h.excludeFromData fun _ => rfl)
  · simp only [if_neg htag, if_neg hlayer, if_neg hdata, if_neg hexclude]
    exact .error _ _

end Equates

/-- The same key of the options in two documents.  It has the same value in both, or the line has
a setting of its own and both values are of the type of the key. -/
inductive Hides (v : Overrides) : Text × Value → Text × Value → Prop
  | same (e : Text × Value) : Hides v e e
  | hostTag (h : v.hostTag ≠ none) (s t : Text) :
    Hides v ("host_tag".toList, .string s) ("host_tag".toList, .string t)
  | layer (h : v.layerName ≠ none) (s t : Text) :
    Hides v ("layer".toList, .string s) ("layer".toList, .string t)
  | dataAttributes (h : v.dataAttributes = true) (s t : Bool) :
    Hides v ("data_attributes".toList, .boolean s) ("data_attributes".toList, .boolean t)
  | exclude (h : v.exclude ≠ []) (s t : List Text) :
    Hides v ("exclude_from_data".toList, .array (s.map .string))
      ("exclude_from_data".toList, .array (t.map .string))

theorem texts_array (s : List Text) : Setting.texts (.array (s.map .string)) = .ok s := by
  change (s.map Value.string).mapM Setting.text = .ok s
  induction s with
  | nil => rfl
  | cons c s ih =>
    rw [List.map_cons, List.mapM_cons, ih]
    rfl

theorem Hides.setKey {e f : Text × Value} (hef : v.Hides e f) (h : v.Equates o p) :
    Tallies v.Equates (o.setKey e.1 e.2) (p.setKey f.1 f.2) := by
  cases hef with
  | same => exact h.setKey e.1 e.2
  | hostTag hv s t => exact .ok (h.hostTag fun hnone => absurd hnone hv)
  | layer hv s t => exact .ok (h.layerName fun hnone => absurd hnone hv)
  | dataAttributes hv s t => exact .ok (h.dataAttributes fun hnone => absurd hv (by simp [hnone]))
  | exclude hv s t =>
    have hset (o : Options) (s : List Text) :
        o.setKey "exclude_from_data".toList (.array (s.map .string)) =
          .ok { o with excludeFromData := some s } := by
      change (Setting.texts (.array (s.map .string)) >>= fun s =>
        pure { o with excludeFromData := some s }) = _
      rw [texts_array]
      rfl
    rw [hset, hset]
    exact .ok (h.excludeFromData fun hnone => absurd hnone hv)

/-! ## Configurations -/

/-- The line makes the same of both configurations. -/
structure EquatesConfigs (v : Overrides) (c d : Config) : Prop where
  mode : c.mode = d.mode
  options : v.Equates c.options d.options

/-- The same key in two documents.  It has the same value in both, or it is that of the options and
each of them has the same value or is hidden by the line. -/
inductive HidesIn (v : Overrides) : Text × Value → Text × Value → Prop
  | same (e : Text × Value) : HidesIn v e e
  | options {entries entries' : Entries} (h : List.Forall₂ v.Hides entries entries')
      (origin origin' : Toml.Origin) :
    HidesIn v ("transform".toList, .table origin entries)
      ("transform".toList, .table origin' entries')

theorem EquatesConfigs.setKey {c d : Config} (h : v.EquatesConfigs c d) (key : Text) (x : Value) :
    Tallies v.EquatesConfigs (c.setKey key x) (d.setKey key x) := by
  unfold Config.setKey
  by_cases hmode : key = "mode".toList
  · simp only [if_pos hmode]
    exact .same_bind _ fun _ => .ok ⟨rfl, h.options⟩
  by_cases hoptions : key = "transform".toList
  · simp only [if_neg hmode, if_pos hoptions]
    exact .same_bind _ fun _ => .ok ⟨h.mode, rfl⟩
  · simp only [if_neg hmode, if_neg hoptions]
    exact .error _ _

theorem HidesIn.setKey {e f : Text × Value} (hef : v.HidesIn e f) {c d : Config}
    (h : v.EquatesConfigs c d) :
    Tallies v.EquatesConfigs (c.setKey e.1 e.2) (d.setKey f.1 f.2) := by
  cases hef with
  | same => exact h.setKey e.1 e.2
  | options hentries origin origin' =>
    have hread := Tallies.foldlM (R := v.Equates) (f := fun o e => Options.setKey o e.1 e.2)
      (fun _ _ _ _ hop hef => hef.setKey hop) hentries (a := {}) (b := {}) rfl
    exact hread.bind fun _ _ hop => .ok ⟨h.mode, hop⟩

/-- Documents that differ in hidden values only both hold a configuration, or neither does, and the
line makes the same of both. -/
theorem tallies_ofDocument {s t : Text} {entries entries' : Entries}
    (hs : Toml.parse? s = some entries) (ht : Toml.parse? t = some entries')
    (h : List.Forall₂ v.HidesIn entries entries') :
    Tallies v.EquatesConfigs (Config.ofDocument s) (Config.ofDocument t) := by
  rw [Config.ofDocument, Config.ofDocument, hs, ht]
  exact .foldlM (fun _ _ _ _ hcd hef => hef.setKey hcd) h ⟨rfl, rfl⟩

theorem ofDocument_of_parse {s : Text} {c : Config} (h : Config.parse s = .ok c) :
    Config.ofDocument s = .ok c := by
  unfold Config.parse at h
  cases hdocument : Config.ofDocument s with
  | error m =>
    rw [hdocument] at h
    cases h
  | ok d =>
    rw [hdocument] at h
    change (d.options.check.mapError ConfigFault.options >>= fun _ => pure d) = .ok c at h
    cases hcheck : d.options.check with
    | error f =>
      rw [hcheck] at h
      cases h
    | ok _ =>
      rw [hcheck] at h
      cases h
      rfl

/-- The check of the options looks at hidden values, too, so that it may accept one of the
documents only. -/
theorem tallies_parse {s t : Text} {entries entries' : Entries}
    (hs : Toml.parse? s = some entries) (ht : Toml.parse? t = some entries')
    (h : List.Forall₂ v.HidesIn entries entries')
    (haccepted : (Config.parse s).isOk = (Config.parse t).isOk) :
    Tallies v.EquatesConfigs (Config.parse s) (Config.parse t) := by
  have hequates := v.tallies_ofDocument hs ht h
  cases hc : Config.parse s with
  | error f =>
    cases hd : Config.parse t with
    | error g => exact .error f g
    | ok d =>
      rw [hc, hd] at haccepted
      cases haccepted
  | ok c =>
    cases hd : Config.parse t with
    | error g =>
      rw [hc, hd] at haccepted
      cases haccepted
    | ok d =>
      rw [ofDocument_of_parse hc, ofDocument_of_parse hd] at hequates
      cases hequates with
      | ok hcd => exact .ok hcd

end Command.Overrides

end HostSheet
