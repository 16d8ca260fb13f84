import Mathlib
import HostSheet.Command.Run

set_option autoImplicit false

/-!
# What a command leaves behind

An action that fails undoes nothing, so what a failing command leaves behind depends on the
order of its steps.  Most steps are quiet (`Action.IsQuiet`): they look at the world and
change nothing, whether they fail or not.  A command is a row of quiet steps and then the one
step that writes or prints, which itself does nothing when it fails (`FailsQuietly`).  And the
output is looked at by that last step only (`DeliversLast`), so that a command gives out the
same text wherever it goes, also over the file the text was read from.
-/

namespace HostSheet

/-! ## Writing to a place -/

namespace Directory

variable {d d' : Directory} {path s component : Text} {p q : Place}

theorem exists_of_bind_eq_ok {α β : Type} {x : Except FileFault α}
    {f : α → Except FileFault β} {b : β} (h : x >>= f = .ok b) :
    ∃ a, x = .ok a ∧ f a = .ok b := by
  cases x with
  | error e => cases h
  | ok a => exact ⟨a, rfl, h⟩

theorem follow_eq_ok (h : d.follow p component = .ok q) : q = p.step component := by
  obtain ⟨_, _, h⟩ := exists_of_bind_eq_ok h
  split at h
  · cases h
  · exact (Except.ok.inj h).symm

theorem foldlM_follow_eq_ok {components : List Text}
    (h : components.foldlM d.follow p = .ok q) : q = components.foldl Place.step p := by
  induction components generalizing p with
  | nil => exact (Except.ok.inj h).symm
  | cons c components ih =>
    obtain ⟨p', hp, h⟩ := exists_of_bind_eq_ok h
    rw [List.foldl_cons, ← follow_eq_ok hp]
    exact ih h

theorem locateFolder_eq_ok (h : d.locateFolder path = .ok p) :
    p = (Place.steps path).dropLast.foldl Place.step (Place.start path) := by
  unfold locateFolder at h
  by_cases hempty : path = []
  · rw [if_pos hempty] at h
    cases h
  by_cases hlong : pathLimit < (Text.utf8 path).length
  · rw [if_neg hempty, if_pos hlong] at h
    cases h
  rw [if_neg hempty, if_neg hlong] at h
  obtain ⟨p', hp, h⟩ := exists_of_bind_eq_ok h
  obtain ⟨_, _, h⟩ := exists_of_bind_eq_ok h
  rw [← Except.ok.inj h]
  exact foldlM_follow_eq_ok hp

/-- A path that can be followed leads to the place it names. -/
theorem locate_eq_ok (h : d.locate path = .ok p) : p = Place.ofPath path := by
  obtain ⟨folder, hfolder, h⟩ := exists_of_bind_eq_ok h
  replace hfolder := locateFolder_eq_ok hfolder
  rw [Place.ofPath]
  cases hlast : (Place.steps path).getLast? with
  | none =>
    rw [hlast] at h
    rw [List.getLast?_eq_none_iff.1 hlast] at hfolder ⊢
    rw [← Except.ok.inj h, hfolder]
    rfl
  | some component =>
    rw [hlast] at h
    rw [follow_eq_ok h, hfolder]
    conv => rhs; rw [← List.dropLast_append_getLast? component hlast]
    rw [List.foldl_append]
    rfl

/-- Writing puts the text at the place that the path names. -/
theorem write_eq_ok (h : d.write path s = .ok d') : d' = d.put (Place.ofPath path) s := by
  unfold write at h
  obtain ⟨_, _, h⟩ := exists_of_bind_eq_ok h
  split at h
  · cases h
  obtain ⟨p, hp, h⟩ := exists_of_bind_eq_ok h
  split at h
  · cases h
  · rw [← Except.ok.inj h, locate_eq_ok hp]

/-- A text that was read is at the place of its path. -/
theorem read_eq_ok (h : d.read path = .ok s) :
    d.file? (Place.ofPath path) = some (.text s) := by
  obtain ⟨p, hp, h⟩ := exists_of_bind_eq_ok h
  obtain rfl := locate_eq_ok hp
  dsimp only at h
  by_cases hfolder : d.isFolder (Place.ofPath path) = true
  · rw [if_pos hfolder] at h
    cases h
  rw [if_neg hfolder] at h
  cases hfile : d.file? (Place.ofPath path) with
  | none =>
    rw [hfile] at h
    cases h
  | some content =>
    rw [hfile] at h
    dsimp only at h
    by_cases hslash : Place.endsInSlash path = true
    · rw [if_pos hslash] at h
      cases h
    rw [if_neg hslash] at h
    cases content with
    | text s' => rw [Except.ok.inj h]
    | bytes => cases h

/-- A text put at a place is there, and all other places are as they were. -/
theorem file?_put (d : Directory) (p : Place) (s : Text) (q : Place) :
    (d.put p s).file? q = if q = p then some (.text s) else d.file? q := by
  unfold put file?
  dsimp only
  by_cases hq : q = p
  · subst hq
    simp
  · rw [List.lookup_cons, if_neg hq]
    have hne : (q == p) = false := by simpa using hq
    rw [hne]
    dsimp only
    induction d.files with
    | nil => rfl
    | cons f files ih =>
      by_cases hf : f.1 = p
      · have hqf : (q == f.1) = false := by rw [hf]; exact hne
        rw [List.filter_cons_of_neg (by simp [hf]), List.lookup_cons, hqf]
        exact ih
      · rw [List.filter_cons_of_pos (by simpa using hf), List.lookup_cons, List.lookup_cons, ih]

end Directory

namespace Command

variable {α β : Type}

/-! ## Files -/

theorem run_readFile (path : Text) (failure : FileFault → Failure) (w : World) :
    (readFile path failure).run w =
      match w.directory.read path with
      | .ok s => .ok s w
      | .error f => .error (failure f) w := by
  rw [readFile, EStateM.run_bind, EStateM.run_get]
  dsimp only
  cases w.directory.read path <;> rfl

theorem run_writeFile (path s : Text) (failure : FileFault → Failure) (w : World) :
    (writeFile path s failure).run w =
      match w.directory.write path s with
      | .ok d => .ok () { w with directory := d }
      | .error f => .error (failure f) w := by
  rw [writeFile, EStateM.run_bind, EStateM.run_get]
  dsimp only
  cases w.directory.write path s <;> rfl

/-! ## Actions that change nothing -/

/-- The action leaves the world as it was, whether it fails or not. -/
def Action.IsQuiet (a : Action α) : Prop :=
  ∀ w, (∃ x, a.run w = .ok x w) ∨ ∃ f, a.run w = .error f w

theorem isQuiet_pure (x : α) : (pure x : Action α).IsQuiet := fun _ => .inl ⟨x, rfl⟩

theorem isQuiet_throw (f : Failure) : (throw f : Action α).IsQuiet := fun _ => .inr ⟨f, rfl⟩

theorem isQuiet_get : (get : Action World).IsQuiet := fun w => .inl ⟨w, rfl⟩

theorem isQuiet_ofExcept (x : Except Failure α) : (ofExcept x : Action α).IsQuiet := by
  cases x with
  | ok x => exact isQuiet_pure x
  | error f => exact isQuiet_throw f

theorem Action.IsQuiet.bind {a : Action α} {g : α → Action β} (ha : a.IsQuiet)
    (hg : ∀ x, (g x).IsQuiet) : (a >>= g).IsQuiet := by
  intro w
  rw [EStateM.run_bind]
  obtain ⟨x, hx⟩ | ⟨f, hf⟩ := ha w
  · rw [hx]
    exact hg x w
  · rw [hf]
    exact .inr ⟨f, rfl⟩

/-- Where the action fails, it leaves the world as it was. -/
def Action.FailsQuietly (a : Action α) : Prop := ∀ w f w', a.run w = .error f w' → w' = w

theorem failsQuietly_modify (g : World → World) : (modify g : Action Unit).FailsQuietly := by
  intro w f w' h
  cases h

theorem Action.FailsQuietly.bind {a : Action α} {g : α → Action β} (ha : a.IsQuiet)
    (hg : ∀ x, (g x).FailsQuietly) : (a >>= g).FailsQuietly := by
  intro w f w' h
  rw [EStateM.run_bind] at h
  obtain ⟨x, hx⟩ | ⟨f', hf⟩ := ha w
  · rw [hx] at h
    exact hg x w f w' h
  · rw [hf] at h
    cases h
    rfl

theorem isQuiet_readFile (path : Text) (failure : FileFault → Failure) :
    (readFile path failure).IsQuiet :=
  isQuiet_get.bind fun _ => isQuiet_ofExcept _

theorem isQuiet_loadConfig (path : Text) : (loadConfig path).IsQuiet :=
  (isQuiet_readFile path _).bind fun _ => isQuiet_ofExcept _

theorem isQuiet_baseConfig (named : Option Text) : (baseConfig named).IsQuiet := by
  cases named with
  | some path => exact isQuiet_loadConfig path
  | none =>
    refine isQuiet_get.bind fun w => ?_
    split
    · exact isQuiet_loadConfig _
    · exact isQuiet_pure _

/-- Settling the configuration changes nothing. -/
theorem isQuiet_settle (v : Overrides) : (settle v).IsQuiet :=
  (isQuiet_baseConfig v.config).bind fun _ =>
    (isQuiet_ofExcept _).bind fun _ => isQuiet_pure _

/-- Reading the input changes nothing. -/
theorem isQuiet_readInput (path : Text) : (readInput path).IsQuiet := by
  unfold readInput
  split
  · refine isQuiet_get.bind fun w => ?_
    split
    · exact isQuiet_pure _
    · exact isQuiet_throw _
  · exact isQuiet_readFile path _

/-! ## The last step -/

theorem failsQuietly_deliver (output : Option Text) (s : Text) :
    (deliver output s).FailsQuietly := by
  cases output with
  | none => exact failsQuietly_modify _
  | some path =>
    exact .bind isQuiet_get fun _ => .bind (isQuiet_ofExcept _) fun _ => failsQuietly_modify _

/-- What was delivered to a path stands at the place of the path, and nowhere else is
anything changed. -/
theorem deliver_eq_ok {path s : Text} {w w' : World}
    (h : (deliver (some path) s).run w = .ok () w') :
    w' = { w with directory := w.directory.put (Place.ofPath path) s } := by
  change (writeFile path s (.output path)).run w = .ok () w' at h
  rw [run_writeFile] at h
  cases hd : w.directory.write path s with
  | error f =>
    rw [hd] at h
    cases h
  | ok d =>
    rw [hd] at h
    rw [← Directory.write_eq_ok hd]
    cases h
    rfl

/-- The output is looked at last: whatever it is, the command fails in the same way and leaves
the world as it was, or it comes to delivering the same text. -/
def DeliversLast (run : Option Text → Action Unit) : Prop :=
  ∀ w, (∃ s, ∀ output, (run output).run w = (deliver output s).run w) ∨
    ∃ f, ∀ output, (run output).run w = .error f w

theorem deliversLast_deliver (s : Text) : DeliversLast fun output => deliver output s :=
  fun _ => .inl ⟨s, fun _ => rfl⟩

theorem DeliversLast.bind {α : Type} {a : Action α} {g : α → Option Text → Action Unit}
    (ha : a.IsQuiet) (hg : ∀ x, DeliversLast (g x)) :
    DeliversLast fun output => a >>= fun x => g x output := by
  intro w
  obtain ⟨x, hx⟩ | ⟨f, hf⟩ := ha w
  · obtain ⟨s, hs⟩ | ⟨f, hf⟩ := hg x w
    · exact .inl ⟨s, fun output => by rw [EStateM.run_bind, hx]; exact hs output⟩
    · exact .inr ⟨f, fun output => by rw [EStateM.run_bind, hx]; exact hf output⟩
  · exact .inr ⟨f, fun output => by rw [EStateM.run_bind, hf]⟩

theorem DeliversLast.failsQuietly {run : Option Text → Action Unit} (h : DeliversLast run)
    (output : Option Text) : (run output).FailsQuietly := by
  intro w f w' hrun
  obtain ⟨s, hs⟩ | ⟨f', hf⟩ := h w
  · rw [hs] at hrun
    exact failsQuietly_deliver output s w f w' hrun
  · rw [hf] at hrun
    cases hrun
    rfl

/-! ## Commands -/

theorem deliversLast_runTransform (input : Text) (mode : Option Mode) (v : Overrides) :
    DeliversLast (runTransform input mode v) :=
  .bind (isQuiet_settle v) fun _ => .bind (isQuiet_readInput input) fun _ =>
    .bind (isQuiet_ofExcept _) fun result => deliversLast_deliver result

theorem deliversLast_runBundle (input : Text) (v : Overrides) (json : Bool) :
    DeliversLast (runBundle input v json) :=
  .bind (isQuiet_settle v) fun _ => .bind (isQuiet_readInput input) fun _ =>
    deliversLast_deliver _

theorem failsQuietly_run (r : Request) : r.run.FailsQuietly := by
  cases r with
  | «show» s => exact failsQuietly_modify _
  | transform input mode v output =>
    exact (deliversLast_runTransform input mode v).failsQuietly output
  | bundle input v json output =>
    exact (deliversLast_runBundle input v json).failsQuietly output
  | hash input => exact .bind (isQuiet_readInput input) fun _ => failsQuietly_deliver none _

/-- The request with another output, if it has one at all. -/
def Request.withOutput (output : Option Text) : Request → Request
  | .transform input mode v _ => .transform input mode v output
  | .bundle input v json _ => .bundle input v json output
  | r => r

/-- A request that writes to a path puts there what it would print without the path. -/
theorem Request.run_eq_ok {r : Request} {path : Text} (hpath : r.writes = some path)
    {w w' : World} (h : r.run.run w = .ok () w') :
    ∃ css, (r.withOutput none).run.run w =
        .ok () { w with printed := w.printed ++ (css ++ ['\n']) } ∧
      w' = { w with directory := w.directory.put (Place.ofPath path) css } := by
  have hlast : ∀ run : Option Text → Action Unit, DeliversLast run →
      (run (some path)).run w = .ok () w' →
      ∃ css, (run none).run w = .ok () { w with printed := w.printed ++ (css ++ ['\n']) } ∧
        w' = { w with directory := w.directory.put (Place.ofPath path) css } := by
    intro run hrun hok
    obtain ⟨css, hcss⟩ | ⟨f, hf⟩ := hrun w
    · rw [hcss] at hok
      exact ⟨css, hcss none, deliver_eq_ok hok⟩
    · rw [hf] at hok
      cases hok
  cases r with
  | «show» s => cases hpath
  | transform input mode v output =>
    obtain rfl : output = some path := hpath
    exact hlast _ (deliversLast_runTransform input mode v) h
  | bundle input v json output =>
    obtain rfl : output = some path := hpath
    exact hlast _ (deliversLast_runBundle input v json) h
  | hash input => cases hpath

/-- A command that fails leaves every file as it was and prints nothing on the standard output,
whatever the line, the files and the standard input are.  A command with an output path that
succeeds prints nothing either, and changes exactly the file at that path, be it one that was
read: there it puts the text that it would have printed without the path. -/
theorem run_leaves (w : Surroundings) (words : List Text) :
    ((run w words).code ≠ 0 →
        (run w words).directory = w.directory ∧ (run w words).stdout = []) ∧
      ∀ r path, ofWords words = .ok r → r.writes = some path → (run w words).code = 0 →
        (run w words).stdout = [] ∧
          ∃ css, (r.withOutput none).run.run { toSurroundings := w } =
              .ok () { toSurroundings := w, printed := css ++ ['\n'] } ∧
            (run w words).directory.folders = w.directory.folders ∧
            ∀ p, (run w words).directory.file? p =
              if p = Place.ofPath path then some (.text css) else w.directory.file? p := by
  unfold run
  cases hwords : ofWords words with
  | error f => exact ⟨fun _ => ⟨rfl, rfl⟩, nofun⟩
  | ok r =>
    dsimp only
    cases hrun : r.run { toSurroundings := w } with
    | error f after =>
      obtain rfl := failsQuietly_run r _ f after hrun
      exact ⟨fun _ => ⟨rfl, rfl⟩, fun _ _ _ _ hcode => absurd hcode Nat.one_ne_zero⟩
    | ok _ after =>
      refine ⟨fun hcode => absurd rfl hcode, fun r' path hr hpath _ => ?_⟩
      obtain rfl := Except.ok.inj hr
      obtain ⟨css, hprinted, rfl⟩ := Request.run_eq_ok hpath hrun
      exact ⟨rfl, css, hprinted, rfl, Directory.file?_put w.directory _ css⟩

/-- A stylesheet that is not read because its block is open, and one that is written over by
another path to it. -/
theorem run_leaves_overwriting :
    let words := ["transform", "-m", "tree", "a.css", "-o", "./a.css"].map String.toList
    let broken : Surroundings :=
      { directory := { files := [(["a.css".toList], .text ":host\x7b".toList)] } }
    let whole : Surroundings :=
      { directory := { files := [(["a.css".toList], .text ":host\x7bb:c\x7d".toList)] } }
    ((run broken words).code ≠ 0 ∧ (run broken words).directory = broken.directory ∧
        (run broken words).stdout = []) ∧
      (run whole words).code = 0 ∧ (run whole words).stdout = [] ∧
      (run whole words).directory.file? ["a.css".toList] = some (.text "b:c".toList) := by
  intro words broken whole
  have hwords : ofWords words = .ok (.transform "a.css".toList (some .tree) {}
      (some "./a.css".toList)) := by decide +kernel
  have hfail : (run broken words).code ≠ 0 := by
    rw [run, hwords]
    decide +kernel
  have hok : (run whole words).code = 0 := by
    rw [run, hwords]
    decide +kernel
  have hwritten : (run whole words).directory.file? ["a.css".toList] =
      some (.text "b:c".toList) := by
    rw [run, hwords]
    decide +kernel
  have hleaves := (run_leaves whole words).2 _ _ hwords rfl hok
  exact ⟨⟨hfail, (run_leaves broken words).1 hfail⟩, hok, hleaves.1, hwritten⟩

end Command

end HostSheet
