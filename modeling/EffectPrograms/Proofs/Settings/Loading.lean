import EffectPrograms.Proofs.DepthLimit
import EffectPrograms.Proofs.Printing
import EffectPrograms.Proofs.Settings.Reading
import EffectPrograms.Settings.Storage

/-!
# Loading settings

What is loaded from a file is what the members of its object say, unless no execution could run
under it (`Settings.parse_of_isSpelledBy`). Saved settings are such an object, printed, so that they
are loaded again as they were saved, through any files that keep what is written to them
(`FileAccess.Faithful`). Since settings without room for the top level are not admitted, every
execution under loaded settings stays within their limit (`Settings.saved_and_loaded`).
-/

namespace EffectPrograms

/-! ## Files that keep what is written -/

/-- What saving and loading need of files: a new file that was written and stored can be read, and
a file that was given another name can be read under the new one. -/
structure FileAccess.Faithful {σ : Type} (files : FileAccess (StateM σ)) : Prop where
  read_written : ∀ {path text : String} {file : files.Handle} {world made written stored : σ},
    (files.create path).run world = (some file, made) →
      (files.write file text).run made = (true, written) →
        (files.sync file).run written = (true, stored) →
          ((files.read path).run stored).1 = some text
  read_rename : ∀ {source target text : String} {world world' : σ},
    ((files.read source).run world).1 = some text →
      (files.rename source target).run world = (true, world') →
        ((files.read target).run world').1 = some text

namespace Directory

variable {d d' : Directory} {path name text : String}

/-- A change leads to the other directory, or leaves the directory as it is. -/
theorem run_change (next : Directory → Option Directory) (d : Directory) :
    (change next).run d = match next d with
      | some d' => (true, d')
      | none => (false, d) := by
  cases h : next d <;> simp [change, h] <;> rfl

/-- A change happened just if there is another directory. -/
theorem run_change_eq_true_iff {next : Directory → Option Directory} :
    (change next).run d = (true, d') ↔ next d = some d' := by
  rw [run_change]
  cases next d with
  | none => exact ⟨nofun, nofun⟩
  | some changed => exact ⟨fun h => congrArg some (Prod.mk.inj h).2, fun h => h ▸ rfl⟩

/-- A file was added just if there is a directory with it. -/
theorem run_add_eq_some_iff :
    (add path).run d = (some name, d') ↔ d.create? path = some (name, d') := by
  rcases h : d.create? path with _ | ⟨added, changed⟩
  · have hadd : (add path).run d = (none, d) := by
      simp [add, h]
      rfl
    rw [hadd]
    exact iff_of_false (fun h => by cases (Prod.mk.inj h).1) (by simp)
  · have hadd : (add path).run d = (some added, changed) := by
      simp [add, h]
      rfl
    rw [hadd]
    constructor
    · intro h
      obtain ⟨hname, rfl⟩ := Prod.mk.inj h
      obtain rfl := Option.some.inj hname
      rfl
    · intro h
      obtain ⟨rfl, rfl⟩ := Prod.mk.inj (Option.some.inj h)
      rfl

/-- A new file is empty, so that it reads as what is written to it. -/
theorem read?_of_write? {made : Directory} (hmade : d.create? path = some (name, made))
    (h : made.write? name text = some d') : d'.read? path = some text := by
  obtain ⟨found, hfound, hmade⟩ := Option.bind_eq_some_iff.1 hmade
  obtain ⟨rfl, rfl⟩ := Prod.mk.inj (Option.some.inj hmade)
  obtain ⟨old, hold, hd⟩ := Option.bind_eq_some_iff.1 h
  obtain rfl : "" = old := by simpa [Entries.get?_put] using hold
  obtain rfl := Option.some.inj hd
  simp [read?, hfound, Entries.get?_put]

/-- A file is read under the name that it was given. -/
theorem read?_of_rename? {source target : String} (hsource : d.read? source = some text)
    (h : d.rename? source target = some d') : d'.read? target = some text := by
  obtain ⟨old, hold, h⟩ := Option.bind_eq_some_iff.1 h
  obtain ⟨new, hnew, h⟩ := Option.bind_eq_some_iff.1 h
  obtain ⟨found, hfound, h⟩ := Option.bind_eq_some_iff.1 h
  obtain rfl : found = text := by simpa [read?, hold, hfound] using hsource
  split at h
  · next hsame =>
    obtain rfl := Option.some.inj h
    simp [read?, hnew, ← hsame, hfound]
  · obtain rfl := Option.some.inj h
    simp [read?, hnew, Entries.get?_put]

/-- The files of a directory keep what is written to them. -/
theorem faithful_access : access.Faithful where
  read_written hmade hwritten hstored := by
    obtain rfl := (Prod.mk.inj hstored).2
    exact read?_of_write? (run_add_eq_some_iff.1 hmade) (run_change_eq_true_iff.1 hwritten)
  read_rename hsource h := read?_of_rename? hsource (run_change_eq_true_iff.1 h)

end Directory

namespace Settings

/-- The settings, if an execution can run under them. -/
def admitted (s : Settings) : Except StorageFault Settings :=
  if s.maxDepth = some 0 then .error (.unusable (.badSettings .noDepth)) else .ok s

/-- The limit is a number of a word. -/
def Fits (s : Settings) : Prop := ∀ limit ∈ s.maxDepth, limit < Nat.pow 2 64

/-! ## Texts of settings -/

/-- Settings that are read are admitted or not. -/
theorem parse_of_read {text : String} {s : Settings} (h : read text = .ok s) :
    parse text = s.admitted := by
  by_cases hdepth : s.maxDepth = some 0 <;> simp [parse, h, validate, admitted, hdepth]

/-- Only settings with room for the top level are admitted. -/
theorem ne_zero_of_parse {text : String} {s : Settings} (h : parse text = .ok s) :
    s.maxDepth ≠ some 0 := by
  cases hread : read text with
  | error flaw => simp [parse, hread] at h
  | ok found =>
    rw [parse_of_read hread, admitted] at h
    split at h
    · simp at h
    · next hroom =>
      obtain rfl := Except.ok.inj h
      exact hroom

/-- What a text holds that spells an object is what the members of the object say. -/
theorem parse_of_isSpelledBy {members : Entries Value} (hnames : members.names.Nodup)
    {text : String} (h : (Value.object members).IsSpelledBy text) :
    (∀ s, ofMembers? members = some s → parse text = s.admitted) ∧
      (ofMembers? members = none → ∃ flaw, parse text = .error (.flawed flaw)) := by
  rw [← read_of_isSpelledBy hnames h]
  cases hread : read text with
  | error flaw => exact ⟨nofun, fun _ => ⟨flaw, by rw [parse, hread]⟩⟩
  | ok found =>
    refine ⟨fun s hs => ?_, nofun⟩
    obtain rfl : found = s := Option.some.inj hs
    exact parse_of_read hread

/-- Printed settings are read again. -/
theorem parse_text {s : Settings} (h : s.Fits) : parse s.text = s.admitted := by
  refine (parse_of_isSpelledBy ?_ (Value.isSpelledBy_pretty s.toValue)).1 s ?_
  · simp [Entries.names]
  · obtain ⟨maxDepth, yields⟩ := s
    cases maxDepth with
    | none => rfl
    | some limit =>
      have hfits : limit < Nat.pow 2 64 := h limit rfl
      have hlimit : limit? (.ofNat limit) = some (some limit) := by
        simp [limit?, Value.ofNat, Value.ofInt, Number.word?, hfits]
      simp [ofMembers?, Entries.get?_cons, hlimit, yields?]

/-! ## Files of settings -/

section

variable {σ : Type} {files : FileAccess (StateM σ)} {path text : String} {world world' : σ}

/-- What is loaded depends on the text of the file only. -/
theorem run_load (files : FileAccess (StateM σ)) (path : String) (world : σ) :
    ((load files path).run world).1 =
      match ((files.read path).run world).1 with
      | some text => parse text
      | none => .error (.unreadable path) := by
  simp only [load, StateT.run_bind]
  rcases (files.read path).run world with ⟨_ | text, later⟩ <;> rfl

/-- What is loaded is what the text of the file holds. -/
theorem load_of_read (h : ((files.read path).run world).1 = some text) :
    ((load files path).run world).1 = parse text := by
  rw [run_load, h]

/-- Only settings with room for the top level are loaded. -/
theorem ne_zero_of_load {s : Settings} (h : ((load files path).run world).1 = .ok s) :
    s.maxDepth ≠ some 0 := by
  rw [run_load] at h
  split at h
  · exact ne_zero_of_parse h
  · simp at h

/-- What is done depends on whether something was possible. -/
theorem run_ite {α : Type} (possible : StateM σ Bool) (yes no : StateM σ α) (world : σ) :
    (do if ← possible then yes else no).run world =
      match possible.run world with
      | (false, next) => no.run next
      | (true, next) => yes.run next := by
  rw [StateT.run_bind]
  rcases possible.run world with ⟨_ | _, next⟩ <;> rfl

/-- Saving goes through a temporary file, and stops at what cannot be done. -/
theorem run_save (s : Settings) (files : FileAccess (StateM σ)) (path : String) (world : σ) :
    (s.save files path).run world =
      match (files.create (Path.temporary path)).run world with
      | (none, made) => (.error (.uncreatable (Path.temporary path)), made)
      | (some file, made) =>
        match (files.write file s.text).run made with
        | (false, written) => (.error .unwritten, written)
        | (true, written) =>
          match (files.sync file).run written with
          | (false, stored) => (.error .unsynced, stored)
          | (true, stored) =>
            match (files.rename (Path.temporary path) path).run stored with
            | (false, named) => (.error (.unrenamable (Path.temporary path) path), named)
            | (true, named) => (.ok (), named) := by
  simp only [save, StateT.run_bind]
  rcases (files.create (Path.temporary path)).run world with ⟨_ | file, made⟩
  · rfl
  dsimp only
  show (do if ← files.write file s.text then _ else _ : StateM σ _).run made = _
  rw [run_ite]
  rcases (files.write file s.text).run made with ⟨_ | _, written⟩
  · rfl
  dsimp only
  rw [run_ite]
  rcases (files.sync file).run written with ⟨_ | _, stored⟩
  · rfl
  dsimp only
  rw [run_ite]
  rcases (files.rename (Path.temporary path) path).run stored with ⟨_ | _, named⟩ <;> rfl

/-- What was saved has been written, stored, and has got its name. -/
theorem save_cases {s : Settings} (h : (s.save files path).run world = (.ok (), world')) :
    ∃ file made written stored,
      (files.create (Path.temporary path)).run world = (some file, made) ∧
      (files.write file s.text).run made = (true, written) ∧
      (files.sync file).run written = (true, stored) ∧
      (files.rename (Path.temporary path) path).run stored = (true, world') := by
  rw [run_save] at h
  split at h
  · exact absurd (Prod.mk.inj h).1 nofun
  next file made hcreate =>
  split at h
  · exact absurd (Prod.mk.inj h).1 nofun
  next written hwrite =>
  split at h
  · exact absurd (Prod.mk.inj h).1 nofun
  next stored hsync =>
  split at h
  · exact absurd (Prod.mk.inj h).1 nofun
  next named hrename =>
  exact ⟨file, made, written, stored, hcreate, hwrite, hsync,
    hrename.trans (congrArg (Prod.mk true) (Prod.mk.inj h).2)⟩

/-- What was saved is loaded. -/
theorem load_of_save (hfiles : files.Faithful) {s : Settings} (hfits : s.Fits)
    (h : (s.save files path).run world = (.ok (), world')) :
    ((load files path).run world').1 = s.admitted := by
  obtain ⟨file, made, written, stored, hcreate, hwrite, hsync, hrename⟩ := save_cases h
  have hread := hfiles.read_written hcreate hwrite hsync
  rw [load_of_read (hfiles.read_rename hread hrename), parse_text hfits]

/-- In a directory everything can be saved under a name that can be used. -/
theorem exists_save_access (s : Settings) {path : String}
    (hpath : (Path.fileName? path).isSome = true)
    (htemporary : (Path.fileName? (Path.temporary path)).isSome = true) (d : Directory) :
    ∃ d', (s.save Directory.access path).run d = (.ok (), d') := by
  obtain ⟨new, hnew⟩ := Option.isSome_iff_exists.1 hpath
  obtain ⟨old, hold⟩ := Option.isSome_iff_exists.1 htemporary
  obtain ⟨made, hmade⟩ : ∃ made, d.create? (Path.temporary path) = some (old, made) := by
    simp [Directory.create?, hold]
  obtain ⟨written, hwritten⟩ : ∃ written, made.write? old s.text = some written := by
    obtain ⟨found, hfound, hgiven⟩ := Option.bind_eq_some_iff.1 hmade
    obtain ⟨rfl, rfl⟩ := Prod.mk.inj (Option.some.inj hgiven)
    simp [Directory.write?, Entries.get?_put]
  -- The temporary file is there to be renamed.
  have hfound : written.files.get? old = some s.text := by
    simpa [Directory.read?, hold] using Directory.read?_of_write? hmade hwritten
  obtain ⟨d', hrename⟩ : ∃ d', written.rename? (Path.temporary path) path = some d' := by
    by_cases hsame : old = new
    · subst hsame
      simp [Directory.rename?, hold, hnew, hfound]
    · simp [Directory.rename?, hold, hnew, hsame, hfound]
  refine ⟨d', ?_⟩
  have hcreated : (Directory.access.create (Path.temporary path)).run d = (some old, made) :=
    Directory.run_add_eq_some_iff.2 hmade
  have hwrote : (Directory.access.write old s.text).run made = (true, written) :=
    Directory.run_change_eq_true_iff.2 hwritten
  have hstored : (Directory.access.sync old).run written = (true, written) := rfl
  have hrenamed : (Directory.access.rename (Path.temporary path) path).run written = (true, d') :=
    Directory.run_change_eq_true_iff.2 hrename
  rw [run_save, hcreated]
  dsimp only
  rw [hwrote]
  dsimp only
  rw [hstored]
  dsimp only
  rw [hrenamed]

end

/-! ## A directory with settings in it -/

/-- Settings with one member of an unknown name, and without a limit. -/
def notedMembers : Entries Value :=
  [("yield_between_steps", .bool false), ("note", .string "slow")]

/-- A directory with these settings in it. -/
def noted : Directory where
  files := [("engine.json", (Value.object notedMembers).pretty)]

/-- The file of the settings and the temporary one have names that can be used. -/
theorem fileName?_noted : Path.fileName? "engine.json" = some "engine.json" ∧
    Path.fileName? (Path.temporary "engine.json") = some "engine.tmp" := by
  have htemporary : Path.temporary "engine.json" = "engine.tmp" := by decide +kernel
  have hsplit : ∀ path ∈ ["engine.json", "engine.tmp"], path.splitOn "/" = [path] := by
    simp only [List.forall_mem_cons, List.not_mem_nil, false_imp_iff, implies_true, and_true]
    -- There are as many rounds as characters.
    constructor <;>
    · rw [String.splitOn, if_neg (by decide)]
      repeat rw [String.splitOnAux, if_neg (by decide), if_neg (by decide)]
      rw [String.splitOnAux, if_pos (by decide)]
      rfl
  rw [htemporary, Path.fileName?, Path.fileName?, hsplit _ (by simp), hsplit _ (by simp)]
  decide +kernel

/-! ## Saved and loaded settings -/

/-- Settings that were saved are loaded as they were, and from any object what its members say,
whatever their order and whatever else there is: a limit that leaves no room for the top level is
refused, and so is a value that can be no such member. Hence every execution under loaded settings
stays within their limit. -/
theorem saved_and_loaded {σ τ : Type} {files : FileAccess (StateM σ)} (hfiles : files.Faithful)
    (path : String) :
    (∀ s : Settings, s.Fits → ∀ world world',
      (s.save files path).run world = (.ok (), world') →
        ((load files path).run world').1 = s.admitted) ∧
    (∀ (members : Entries Value) text world, members.names.Nodup →
      (Value.object members).IsSpelledBy text → ((files.read path).run world).1 = some text →
        (∀ s, ofMembers? members = some s → ((load files path).run world).1 = s.admitted) ∧
        (ofMembers? members = none →
          ∃ flaw, ((load files path).run world).1 = .error (.flawed flaw))) ∧
    ∀ s world, ((load files path).run world).1 = .ok s → ∀ limit ∈ s.maxDepth,
      1 ≤ limit ∧ ∀ (registry : Registry τ) program e,
        (Executor.mk registry s).Reachable program e → e.depth ≤ limit := by
  refine ⟨fun s hfits world world' => load_of_save hfiles hfits, ?_, ?_⟩
  · intro members text world hnames hspelled hread
    rw [load_of_read hread]
    exact parse_of_isSpelledBy hnames hspelled
  · intro s world hload limit hlimit
    have hdepth : s.maxDepth = some limit := hlimit
    have hpositive : 1 ≤ limit := by
      have hne := ne_zero_of_load hload
      rw [hdepth, Ne, Option.some.injEq] at hne
      omega
    exact ⟨hpositive, fun registry program e he => he.depth_le hdepth hpositive⟩

/-- The file is loaded with the default for the limit. Then settings with a limit are saved in its
place and loaded again, and a program is led to as many open composites as they admit. -/
theorem saved_and_loaded_noted :
    ((load Directory.access "engine.json").run noted).1 = .ok ⟨none, false⟩ ∧
    ∃ d, (save ⟨some 2, false⟩ Directory.access "engine.json").run noted = (.ok (), d) ∧
      ((load Directory.access "engine.json").run d).1 = .ok ⟨some 2, false⟩ ∧
      ∃ e, (Executor.mk .empty ⟨some 2, false⟩).Reachable Program.nestedQuestion e ∧
        e.depth = 2 ∧ e.depth ≤ 2 := by
  obtain ⟨hsaved, hobject, hrun⟩ :=
    @saved_and_loaded Directory Unit Directory.access Directory.faithful_access "engine.json"
  obtain ⟨hname, htemporary⟩ := fileName?_noted
  have hread : ((Directory.access.read "engine.json").run noted).1 =
      some (Value.object notedMembers).pretty := by
    show noted.read? "engine.json" = _
    rw [Directory.read?, hname]
    rfl
  have hnoted := (hobject notedMembers _ noted (by decide) (Value.isSpelledBy_pretty _) hread).1
    ⟨none, false⟩ rfl
  obtain ⟨d, hd⟩ := exists_save_access ⟨some 2, false⟩ (by rw [hname]; rfl)
    (by rw [htemporary]; rfl) noted
  have hloaded := hsaved ⟨some 2, false⟩ (by rintro limit ⟨⟩; decide) noted d hd
  have hstart : (Executor.mk .empty ⟨some 2, false⟩).Reachable Program.nestedQuestion _ := .start
  have hopen := hstart.step (show _ = some _ from rfl : Executor.step _ 0 _ () = some _)
  exact ⟨hnoted, d, hd, hloaded, _, hopen, rfl, (hrun _ d hloaded 2 rfl).2 _ _ _ hopen⟩

end Settings

end EffectPrograms
