import Mathlib
import HostSheet.Proofs.Effects
import HostSheet.Proofs.Settings

set_option autoImplicit false

/-!
# Settings of the line over those of the file

A setting of the command line goes over that of the configuration file, so that the value in the
file is not looked at any more (`Overrides.Hides`).  But the file is checked on its own first, and
a value that its check refuses is refused whether or not the line would have gone over it.
Two files that differ in hidden values only lead to the same result if both are accepted on their
own, or neither is (`run_of_hides`).

Two runs are compared step by step.  A path leads to the same place in both directories, since
the same places are taken in them (`Directory.SameShape`).  All steps but the last one come to the
same (`Action.Agrees`), and the last one writes or prints the same (`Action.EndsAlike`).
-/

namespace HostSheet

/-! ## Directories that differ in one file -/

namespace Directory

variable {d d' : Directory} {p : Place}

/-- A path leads to the same place in both directories. -/
structure SameShape (d d' : Directory) : Prop where
  isFolder : ∀ p, d.isFolder p = d'.isFolder p
  isSome_file? : ∀ p, (d.file? p).isSome = (d'.file? p).isSome

/-- The directories differ in what the file at the place holds at most. -/
structure AgreeOff (p : Place) (d d' : Directory) : Prop where
  folders : d.folders = d'.folders
  file? : ∀ q, q ≠ p → d.file? q = d'.file? q

theorem agreeOff_files {x y : Content} {files : List (Place × Content)} {folders : List Place} :
    AgreeOff p ⟨(p, x) :: files, folders⟩ ⟨(p, y) :: files, folders⟩ where
  folders := rfl
  file? q hq := by
    have hne : (q == p) = false := by simpa using hq
    rw [Directory.file?, Directory.file?, List.lookup_cons, List.lookup_cons, hne]

theorem isSome_file?_iff : (d.file? p).isSome = true ↔ ∃ f ∈ d.files, f.1 = p := by
  rw [file?, ← not_iff_not, Bool.not_eq_true, Option.isSome_eq_false_iff,
    Option.isNone_iff_eq_none, List.lookup_eq_none_iff]
  simp only [bne_iff_ne, not_exists, not_and]
  exact forall₂_congr fun f _ => ne_comm

theorem any_files_eq (q : Place → Bool) :
    (d.files.any fun f => q f.1) = true ↔ ∃ p, q p = true ∧ (d.file? p).isSome = true := by
  simp only [List.any_eq_true, isSome_file?_iff]
  constructor
  · rintro ⟨f, hf, hq⟩
    exact ⟨f.1, hq, f, hf, rfl⟩
  · rintro ⟨_, hq, f, hf, rfl⟩
    exact ⟨f, hf, hq⟩

/-- Where both directories have a file at the place, they have the same shape. -/
theorem AgreeOff.sameShape (h : AgreeOff p d d') (hd : (d.file? p).isSome = true)
    (hd' : (d'.file? p).isSome = true) : SameShape d d' := by
  have hfile : ∀ q, (d.file? q).isSome = (d'.file? q).isSome := by
    intro q
    by_cases hq : q = p
    · rw [hq, hd, hd']
    · rw [h.file? q hq]
  refine ⟨fun q => ?_, hfile⟩
  rw [isFolder, isFolder, h.folders]
  congr 1
  rw [Bool.eq_iff_iff, any_files_eq fun r => q.isPrefixOf r && q != r,
    any_files_eq fun r => q.isPrefixOf r && q != r]
  simp only [hfile]

theorem SameShape.follow (h : SameShape d d') (p : Place) (component : Text) :
    d.follow p component = d'.follow p component := by
  rw [Directory.follow, Directory.follow, requireFolder, requireFolder, h.isFolder, h.isSome_file?]

theorem SameShape.foldlM_follow (h : SameShape d d') (p : Place) (components : List Text) :
    components.foldlM d.follow p = components.foldlM d'.follow p := by
  rw [funext₂ h.follow]

theorem SameShape.locateFolder (h : SameShape d d') (path : Text) :
    d.locateFolder path = d'.locateFolder path := by
  simp only [Directory.locateFolder, h.foldlM_follow, requireFolder, h.isFolder, h.isSome_file?]

theorem SameShape.locate (h : SameShape d d') (path : Text) : d.locate path = d'.locate path := by
  rw [Directory.locate, Directory.locate, h.locateFolder, funext₂ h.follow]

/-- A text can be written to a path in both directories, or in neither. -/
theorem SameShape.write (h : SameShape d d') (path s : Text) :
    (∃ f, d.write path s = .error f ∧ d'.write path s = .error f) ∨
      d.write path s = .ok (d.put (Place.ofPath path) s) ∧
        d'.write path s = .ok (d'.put (Place.ofPath path) s) := by
  unfold Directory.write
  rw [← h.locateFolder, ← h.locate]
  cases d.locateFolder path with
  | error f => exact .inl ⟨f, rfl, rfl⟩
  | ok folder =>
    by_cases hslash : Place.endsInSlash path = true
    · simp only [if_pos hslash]
      exact .inl ⟨.isFolder, rfl, rfl⟩
    · simp only [if_neg hslash]
      cases hp : d.locate path with
      | error f => exact .inl ⟨f, rfl, rfl⟩
      | ok p =>
        obtain rfl := locate_eq_ok hp
        simp only [bind, Except.bind, ← h.isFolder]
        by_cases hfolder : d.isFolder (Place.ofPath path) = true
        · simp only [if_pos hfolder]
          exact .inl ⟨.isFolder, rfl, rfl⟩
        · simp only [if_neg hfolder]
          exact .inr ⟨rfl, rfl⟩

end Directory

namespace Command

/-! ## Two runs -/

variable {α β : Type} {w w' : World}

/-- Both runs of an action come to the same value or both fail, and neither changes anything. -/
def Action.Agrees (a : Action α) (w w' : World) : Prop :=
  (∃ x, a.run w = .ok x w ∧ a.run w' = .ok x w') ∨
    ∃ f f', a.run w = .error f w ∧ a.run w' = .error f' w'

/-- Both runs of an action end in the same way: they fail and change nothing, or they print the
same text, or they put the same text at the same place. -/
def Action.EndsAlike (a : Action Unit) (w w' : World) : Prop :=
  (∃ f f', a.run w = .error f w ∧ a.run w' = .error f' w') ∨
    (∃ s, a.run w = .ok () { w with printed := w.printed ++ s } ∧
      a.run w' = .ok () { w' with printed := w'.printed ++ s }) ∨
    ∃ p s, a.run w = .ok () { w with directory := w.directory.put p s } ∧
      a.run w' = .ok () { w' with directory := w'.directory.put p s }

theorem agrees_ofExcept (x : Except Failure α) : (ofExcept x : Action α).Agrees w w' := by
  cases x with
  | ok x => exact .inl ⟨x, rfl, rfl⟩
  | error f => exact .inr ⟨f, f, rfl, rfl⟩

theorem Action.Agrees.endsAlike {a : Action α} {g : α → Action Unit} (ha : a.Agrees w w')
    (hg : ∀ x, (g x).EndsAlike w w') : (a >>= g).EndsAlike w w' := by
  obtain ⟨x, hx, hx'⟩ | ⟨f, f', hf, hf'⟩ := ha
  · have hrun : (a >>= g).run w = (g x).run w := by rw [EStateM.run_bind, hx]
    have hrun' : (a >>= g).run w' = (g x).run w' := by rw [EStateM.run_bind, hx']
    rw [Action.EndsAlike, hrun, hrun']
    exact hg x
  · refine .inl ⟨f, f', ?_, ?_⟩
    · rw [EStateM.run_bind, hf]
    · rw [EStateM.run_bind, hf']

/-- A text is delivered in the same way wherever paths lead to the same places. -/
theorem endsAlike_deliver (h : w.directory.SameShape w'.directory) (output : Option Text)
    (s : Text) : (deliver output s).EndsAlike w w' := by
  cases output with
  | none => exact .inr (.inl ⟨s ++ ['\n'], rfl, rfl⟩)
  | some path =>
    change (writeFile path s (.output path)).EndsAlike w w'
    rw [Action.EndsAlike, run_writeFile, run_writeFile]
    obtain ⟨f, hf, hf'⟩ | ⟨hok, hok'⟩ := h.write path s
    · rw [hf, hf']
      exact .inl ⟨.output path f, .output path f, rfl, rfl⟩
    · rw [hok, hok']
      exact .inr (.inr ⟨Place.ofPath path, s, rfl, rfl⟩)

/-- The input is read in the same way if its file holds the same. -/
theorem agrees_readInput {input : Text} (hstandard : w.standardInput = w'.standardInput)
    (hfile : input ≠ standardInputPath →
      w.directory.read input = w'.directory.read input) :
    (readInput input).Agrees w w' := by
  unfold readInput
  by_cases hinput : input = standardInputPath
  · simp only [if_pos hinput]
    rw [Action.Agrees, EStateM.run_bind, EStateM.run_bind, EStateM.run_get, EStateM.run_get]
    dsimp only
    rw [← hstandard]
    cases w.standardInput with
    | text s => exact .inl ⟨s, rfl, rfl⟩
    | bytes => exact .inr ⟨_, _, rfl, rfl⟩
  · simp only [if_neg hinput]
    rw [Action.Agrees, run_readFile, run_readFile, ← hfile hinput]
    cases w.directory.read input with
    | ok s => exact .inl ⟨s, rfl, rfl⟩
    | error f => exact .inr ⟨_, _, rfl, rfl⟩

/-! ## The configuration -/

/-- The path of the configuration file. -/
def Overrides.configPath (v : Overrides) : Text := v.config.getD defaultConfigPath

/-- The file is loaded and checked on its own. -/
theorem run_baseConfig {v : Overrides} {s : Text} (h : w.directory.read v.configPath = .ok s) :
    (baseConfig v.config).run w =
      match Config.parse s with
      | .ok c => .ok c w
      | .error f => .error (.config v.configPath (.config f)) w := by
  have hload : (loadConfig v.configPath).run w =
      match Config.parse s with
      | .ok c => .ok c w
      | .error f => .error (.config v.configPath (.config f)) w := by
    rw [loadConfig, EStateM.run_bind, run_readFile, h]
    dsimp only
    cases Config.parse s <;> rfl
  rw [← hload]
  cases hnamed : v.config with
  | some path =>
    rw [Overrides.configPath, hnamed]
    rfl
  | none =>
    have hpath : v.configPath = defaultConfigPath := by rw [Overrides.configPath, hnamed]; rfl
    rw [hpath] at h ⊢
    have hexists : w.directory.exists? defaultConfigPath = true := by
      rw [Directory.exists?, h]
    unfold baseConfig
    rw [EStateM.run_bind, EStateM.run_get]
    dsimp only
    rw [if_pos hexists]

/-- A file that is refused on its own is refused, whatever the line says. -/
theorem run_settle_of_parse_eq_error {v : Overrides} {s : Text} {f : ConfigFault}
    (h : w.directory.read v.configPath = .ok s) (hparse : Config.parse s = .error f) :
    (settle v).run w = .error (.config v.configPath (.config f)) w := by
  rw [settle, EStateM.run_bind, run_baseConfig h, hparse]

/-- Configurations that the line makes the same of are settled in the same way. -/
theorem agrees_settle {v : Overrides} {s s' : Text} (h : w.directory.read v.configPath = .ok s)
    (h' : w'.directory.read v.configPath = .ok s')
    (hequates : Tallies v.EquatesConfigs (Config.parse s) (Config.parse s')) :
    (settle v).Agrees w w' := by
  rw [Action.Agrees, settle, EStateM.run_bind, EStateM.run_bind, run_baseConfig h,
    run_baseConfig h']
  generalize Config.parse s = x at hequates ⊢
  generalize Config.parse s' = x' at hequates ⊢
  cases hequates with
  | error f f' => exact .inr ⟨_, _, rfl, rfl⟩
  | @ok c c' hcc =>
    have hoptions : v.apply c.options = v.apply c'.options := hcc.options
    have hsame : { c with options := v.apply c.options } =
        { c' with options := v.apply c'.options } := by
      rw [Config.mk.injEq]
      exact ⟨hcc.mode, hoptions⟩
    dsimp only
    rw [← hsame, ← hoptions]
    cases (v.apply c.options).check with
    | ok _ => exact .inl ⟨_, rfl, rfl⟩
    | error f => exact .inr ⟨.options f, .options f, rfl, rfl⟩

/-! ## Commands -/

/-- The requests to rewrite a stylesheet, with the input and the settings of the line. -/
inductive Request.Rewrites (input : Text) (v : Overrides) : Request → Prop
  | transform (mode : Option Mode) (output : Option Text) :
    Rewrites input v (.transform input mode v output)
  | bundle (json : Bool) (output : Option Text) : Rewrites input v (.bundle input v json output)

theorem Request.Rewrites.endsAlike {r : Request} {input : Text} {v : Overrides}
    (hr : r.Rewrites input v) (hsettle : (settle v).Agrees w w')
    (hinput : (readInput input).Agrees w w')
    (hshape : w.directory.SameShape w'.directory) : r.run.EndsAlike w w' := by
  cases hr with
  | transform mode output =>
    exact hsettle.endsAlike fun _ => hinput.endsAlike fun _ =>
      (agrees_ofExcept _).endsAlike fun result => endsAlike_deliver hshape output result
  | bundle json output =>
    exact hsettle.endsAlike fun _ => hinput.endsAlike fun _ =>
      endsAlike_deliver hshape output _

theorem Request.Rewrites.run_of_settle {r : Request} {input : Text} {v : Overrides} {f : Failure}
    (hr : r.Rewrites input v) (hsettle : (settle v).run w = .error f w) :
    r.run.run w = .error f w := by
  cases hr with
  | transform mode output =>
    change (runTransform input mode v output).run w = _
    rw [runTransform, EStateM.run_bind, hsettle]
  | bundle json output =>
    change (runBundle input v json output).run w = _
    rw [runBundle, EStateM.run_bind, hsettle]

/-- The same was written in both directories: nothing, or the same text at the same place. -/
def SameWritten (d after d' after' : Directory) : Prop :=
  (after = d ∧ after' = d') ∨ ∃ p s, after = d.put p s ∧ after' = d'.put p s

theorem run_eq {w : Surroundings} {words : List Text} {r : Request} (h : ofWords words = .ok r) :
    run w words =
      match r.run.run { toSurroundings := w } with
      | .ok () after => { code := 0, stdout := after.printed, directory := after.directory }
      | .error f after =>
        { code := 1, stdout := after.printed, stderr := f.report,
          directory := after.directory } := by
  rw [run, h]
  rfl

/-- Two runs of a line with the same input and the same files, but for the configuration file,
which holds documents that differ only in values that the line goes over.  If both documents or
neither are accepted on their own, the runs end with the same code, print the same and write the
same.  A document that is not accepted makes the command fail and do nothing, whatever the line
says. -/
theorem run_of_hides {w w' : Surroundings} {words : List Text} {r : Request} {input s s' : Text}
    {v : Overrides} {entries entries' : Toml.Entries} (hwords : ofWords words = .ok r)
    (hr : r.Rewrites input v)
    (hdirectory : w.directory.AgreeOff (Place.ofPath v.configPath) w'.directory)
    (hstandard : w.standardInput = w'.standardInput)
    (hinput : input ≠ standardInputPath → w.directory.read input = w'.directory.read input)
    (hread : w.directory.read v.configPath = .ok s)
    (hread' : w'.directory.read v.configPath = .ok s')
    (hentries : Toml.parse? s = some entries) (hentries' : Toml.parse? s' = some entries')
    (hhides : List.Forall₂ v.HidesIn entries entries') :
    ((Config.parse s).isOk = (Config.parse s').isOk →
        (run w words).code = (run w' words).code ∧ (run w words).stdout = (run w' words).stdout ∧
          SameWritten w.directory (run w words).directory w'.directory (run w' words).directory) ∧
      ((Config.parse s).isOk = false →
        (run w words).code = 1 ∧ (run w words).stdout = [] ∧
          (run w words).directory = w.directory) := by
  constructor
  · intro haccepted
    have hshape : w.directory.SameShape w'.directory := by
      refine hdirectory.sameShape ?_ ?_
      · rw [Directory.read_eq_ok hread]
        rfl
      · rw [Directory.read_eq_ok hread']
        rfl
    have hsettle : (settle v).Agrees { toSurroundings := w } { toSurroundings := w' } :=
      agrees_settle hread hread' (v.tallies_parse hentries hentries' hhides haccepted)
    have hends := hr.endsAlike hsettle (agrees_readInput hstandard hinput) hshape
    rw [run_eq hwords, run_eq hwords]
    obtain ⟨f, f', hf, hf'⟩ | ⟨s, hs, hs'⟩ | ⟨p, s, hs, hs'⟩ := hends
    · rw [hf, hf']
      exact ⟨rfl, rfl, .inl ⟨rfl, rfl⟩⟩
    · rw [hs, hs']
      exact ⟨rfl, rfl, .inl ⟨rfl, rfl⟩⟩
    · rw [hs, hs']
      exact ⟨rfl, rfl, .inr ⟨p, s, rfl, rfl⟩⟩
  · intro hrefused
    cases hparse : Config.parse s with
    | ok c =>
      rw [hparse] at hrefused
      cases hrefused
    | error f =>
      have hsettle : (settle v).run { toSurroundings := w } = _ :=
        run_settle_of_parse_eq_error hread hparse
      rw [run_eq hwords, hr.run_of_settle hsettle]
      exact ⟨rfl, rfl, rfl⟩

/-- Two host tags that the line goes over, with the result written over the configuration file. -/
theorem run_of_hides_tag :
    let words := ["transform", "a.css", "--host-tag", ".x", "-o", "hostcss.toml"].map String.toList
    let file (s : String) : Surroundings :=
      { directory.files := [(["hostcss.toml".toList], .text s.toList),
          (["a.css".toList], .text ":host(b) \x7b \x7d".toList)] }
    let w := file "transform.layer = 'l'\ntransform.host_tag = 'p'"
    let w' := file "transform.layer = 'l'\ntransform.host_tag = 'q'"
    (run w words).code = 0 ∧ (run w words).code = (run w' words).code ∧
      (run w words).stdout = (run w' words).stdout ∧
      SameWritten w.directory (run w words).directory w'.directory (run w' words).directory := by
  intro words file w w'
  let v : Overrides := { hostTag := some ".x".toList }
  let s := "transform.layer = 'l'\ntransform.host_tag = 'p'".toList
  let s' := "transform.layer = 'l'\ntransform.host_tag = 'q'".toList
  let entries (tag : Text) : Toml.Entries := [("transform".toList, .table .dotted
    [("layer".toList, .string ['l']), ("host_tag".toList, .string tag)])]
  have hwords : ofWords words = .ok (.transform "a.css".toList none v
      (some "hostcss.toml".toList)) := by decide +kernel
  have hplace : Place.ofPath v.configPath = ["hostcss.toml".toList] := by decide +kernel
  have hdirectory : w.directory.AgreeOff (Place.ofPath v.configPath) w'.directory := by
    rw [hplace]
    exact Directory.agreeOff_files
  have hinput : w.directory.read "a.css".toList = w'.directory.read "a.css".toList := by
    decide +kernel
  have hread : w.directory.read v.configPath = .ok s := by decide +kernel
  have hread' : w'.directory.read v.configPath = .ok s' := by decide +kernel
  have hentries : Toml.parse? s = some (entries ['p']) := rfl
  have hentries' : Toml.parse? s' = some (entries ['q']) := rfl
  have hhides : List.Forall₂ v.HidesIn (entries ['p']) (entries ['q']) :=
    .cons (.options (.cons (.same _) (.cons (.hostTag (Option.some_ne_none _) _ _) .nil)) _ _) .nil
  have haccepted : (Config.parse s).isOk = (Config.parse s').isOk := by decide +kernel
  have hcode : (run w words).code = 0 := by
    rw [run, hwords]
    decide +kernel
  have hruns := run_of_hides hwords (.transform none _) hdirectory rfl (fun _ => hinput) hread
    hread' hentries hentries' hhides
  exact ⟨hcode, hruns.1 haccepted⟩

/-- The line goes over the host tags of both files, but the one that the check refuses is not
accepted for that. -/
theorem run_refuses_hidden_tag :
    let words := ["transform", "-", "--host-tag", "&"].map String.toList
    let v : Overrides := { hostTag := some ['&'] }
    let file (s : String) : Surroundings :=
      { directory.files := [(["hostcss.toml".toList], .text s.toList)]
        standardInput := .text "a \x7b \x7d".toList }
    let w := file "[transform]\nhost_tag = ''"
    let w' := file "[transform]\nhost_tag = '&'"
    let entries (tag : Text) : Toml.Entries :=
      [("transform".toList, .table .header [("host_tag".toList, .string tag)])]
    (ofWords words = .ok (.transform ['-'] none v none) ∧
        w.directory.AgreeOff (Place.ofPath v.configPath) w'.directory ∧
        (∃ s, w.directory.read v.configPath = .ok s ∧ Toml.parse? s = some (entries []) ∧
          Config.ofDocument s = .ok { options := { hostTag := [] } }) ∧
        (∃ s, w'.directory.read v.configPath = .ok s ∧ Toml.parse? s = some (entries ['&']) ∧
          Config.ofDocument s = .ok {}) ∧
        List.Forall₂ v.HidesIn (entries []) (entries ['&'])) ∧
      (run w words).code = 1 ∧ (run w' words).code = 0 := by
  intro words v file w w' entries
  have hwords : ofWords words = .ok (.transform ['-'] none v none) := by decide +kernel
  have hplace : Place.ofPath v.configPath = ["hostcss.toml".toList] := by decide +kernel
  have hdirectory : w.directory.AgreeOff (Place.ofPath v.configPath) w'.directory := by
    rw [hplace]
    exact Directory.agreeOff_files
  have hread : w.directory.read v.configPath = .ok "[transform]\nhost_tag = ''".toList := by
    decide +kernel
  have hread' : w'.directory.read v.configPath = .ok "[transform]\nhost_tag = '&'".toList := by
    decide +kernel
  have hhides : List.Forall₂ v.HidesIn (entries []) (entries ['&']) :=
    .cons (.options (.cons (.hostTag (Option.some_ne_none _) _ _) .nil) _ _) .nil
  refine ⟨⟨hwords, hdirectory, ⟨_, hread, rfl, by decide +kernel⟩,
    ⟨_, hread', rfl, by decide +kernel⟩, hhides⟩, ?_, ?_⟩
  · rw [run, hwords]
    decide +kernel
  · rw [run, hwords]
    decide +kernel

end Command

end HostSheet
