import Beamline.CommandLine.Arguments
import Beamline.CommandLine.Outcome
import Beamline.Proofs.Settings

/-!
# What runs change

* `Command.written?` : the file that a command may write;
* `Output.Proper` : outputs whose code is 0, unless they are a verdict, and that write that file
  only; every output of a command is one (`Command.proper_of_run`);
* `Command.run_inPlace` : formatting in place succeeds where the document can be decoded and its
  file can be written;
* `Invocation.leaves` : the contents behind a run;
* `Invocation.effect_outcome` : what runs with either code change, and what formatting in place
  leaves behind.
-/

namespace Beamline

open Workspace (Contents)

/-- The file that a command may write. -/
def Command.written? (c : Command) : Option String :=
  match c.task with
  | .onDocument (.format true) => some c.file
  | .onDocument (.toDeck _ out) | .fromDeck _ out => out
  | _ => none

/-! ## Outputs -/

/-- An output with the code 0, or the code 1 if it is a verdict, that writes at most the file of the
command. -/
structure Output.Proper (w : Workspace) (c : Command) (o : Output) : Prop where
  code : o.code = 0 ∨ o.code = 1 ∧ c.task = .validate
  file : ∀ path text, o.file = some (path, text) →
    o.code = 0 ∧ c.written? = some path ∧ w.write path = .ok ()

namespace Output

variable {w : Workspace} {c : Command} {o : Output} {text : String}

/-- A text that is printed. -/
theorem proper_text (w : Workspace) (c : Command) (text : String) : Proper w c { text } :=
  ⟨.inl rfl, nofun⟩

theorem proper_of_emit {out : Option String} (hc : c.written? = out) (h : emit w out text = .ok o) :
    o.Proper w c := by
  unfold emit at h
  split at h
  · cases h
    exact proper_text w c text
  · split at h
    · rename_i path hwrite
      cases h
      refine ⟨.inl rfl, ?_⟩
      rintro _ _ ⟨⟩
      exact ⟨rfl, hc, hwrite⟩
    · cases h

theorem overwrite_eq_ok {path : String} : overwrite w path text = .ok o ↔
    w.write path = .ok () ∧ o = { text := "", file := some (path, text) } := by
  unfold overwrite
  split
  · rename_i hwrite
    exact ⟨fun h => ⟨hwrite, (Except.ok.inj h).symm⟩, fun h => congrArg _ h.2.symm⟩
  · rename_i hwrite
    refine ⟨nofun, fun h => ?_⟩
    rw [hwrite] at h
    cases h.1

end Output

/-! ## Commands -/

section Commands

variable {w : Workspace} {policy : Policy} {c : Command} {o : Output}

theorem onFile_eq_ok {file : String} {use : String → Result} :
    (onFile w file use).1 = .ok o ↔ ∃ text, w.readText file = .ok text ∧ (use text).1 = .ok o := by
  unfold onFile
  cases w.readText file with
  | error flaw => simp
  | ok text => simp

theorem decodeText_eq_ok {task : DocumentTask} {file text : String} :
    (decodeText w policy task file text).1 = .ok o ↔
      ∃ d, Document.decode policy text = .ok d ∧ task.run w file d = .ok o := by
  show ((Document.decode policy text).mapError _ >>= _) = _ ↔ _
  rw [bind_eq_ok]
  simp only [mapError_eq_ok]

/-- What is done with a document writes at most the file that the command names. -/
theorem DocumentTask.proper_of_run {task : DocumentTask} {file : String} {d : Document}
    (h : task.run w file d = .ok o) : o.Proper w ⟨file, .onDocument task⟩ := by
  cases task with
  | describe name =>
    obtain ⟨text, -, h⟩ := bind_eq_ok.1 h
    cases h
    exact Output.proper_text ..
  | tree lattice =>
    obtain ⟨name, -, h⟩ := bind_eq_ok.1 h
    obtain ⟨text, -, h⟩ := bind_eq_ok.1 h
    cases h
    exact Output.proper_text ..
  | expand lattice =>
    obtain ⟨name, -, h⟩ := bind_eq_ok.1 h
    obtain ⟨elements, -, h⟩ := bind_eq_ok.1 h
    cases h
    exact Output.proper_text ..
  | format inPlace =>
    cases inPlace with
    | false =>
      cases h
      exact Output.proper_text ..
    | true =>
      obtain ⟨hwrite, rfl⟩ := Output.overwrite_eq_ok.1 h
      refine ⟨.inl rfl, ?_⟩
      rintro _ _ ⟨⟩
      exact ⟨rfl, rfl, hwrite⟩
  | toDeck dialect out =>
    obtain ⟨text, -, h⟩ := bind_eq_ok.1 h
    exact Output.proper_of_emit rfl h

theorem proper_of_validateText {file text : String}
    (h : (validateText policy file text).1 = .ok o) : o.Proper w ⟨file, .validate⟩ := by
  unfold validateText at h
  split at h
  · cases h
    exact ⟨.inr ⟨rfl, rfl⟩, nofun⟩
  · cases h
    unfold Output.report
    split
    · exact Output.proper_text ..
    · exact ⟨.inr ⟨rfl, rfl⟩, nofun⟩

theorem proper_of_migrateText {source target : Option Nat} {file text : String}
    (h : (migrateText policy source target file text).1 = .ok o) : o.Proper w c := by
  unfold migrateText at h
  split at h
  · cases h
  · split at h
    · obtain ⟨d, -, rfl⟩ := map_eq_ok.1 h
      exact Output.proper_text ..
    · cases h
      exact Output.proper_text ..

theorem proper_of_importText {dialect : Dialect} {out : Option String} {file text : String}
    (hc : c.written? = out) (h : (importText w dialect out file text).1 = .ok o) :
    o.Proper w c := by
  obtain ⟨d, -, h⟩ := bind_eq_ok.1 h
  exact Output.proper_of_emit hc h

/-- A command that succeeds has an output with the right code, which writes its own file only. -/
theorem Command.proper_of_run (h : (c.run w policy).1 = .ok o) : o.Proper w c := by
  obtain ⟨file, task⟩ := c
  cases task with
  | validate =>
    obtain ⟨text, -, h⟩ := onFile_eq_ok.1 h
    exact proper_of_validateText h
  | onDocument task =>
    obtain ⟨text, -, h⟩ := onFile_eq_ok.1 h
    obtain ⟨d, -, h⟩ := decodeText_eq_ok.1 h
    exact DocumentTask.proper_of_run h
  | fromDeck dialect out =>
    unfold Command.run at h
    dsimp only at h
    split at h
    · cases h
    · obtain ⟨text, -, h⟩ := onFile_eq_ok.1 h
      exact proper_of_importText rfl h
  | migrate source target =>
    obtain ⟨text, -, h⟩ := onFile_eq_ok.1 h
    exact proper_of_migrateText h

/-- Formatting in place succeeds where the document can be decoded and its file written, and writes
the document's own text. -/
theorem Command.run_inPlace {file : String} :
    (Command.run w policy ⟨file, .onDocument (.format true)⟩).1 = .ok o ↔
      ∃ text d, w.readText file = .ok text ∧ Document.decode policy text = .ok d ∧
        w.write file = .ok () ∧ o = { text := "", file := some (file, d.encode) } := by
  refine onFile_eq_ok.trans (exists_congr fun text => ?_)
  rw [decodeText_eq_ok, ← exists_and_left]
  exact exists_congr fun d => and_congr_right fun _ => and_congr_right fun _ =>
    Output.overwrite_eq_ok

end Commands

/-! ## Runs -/

namespace Invocation

variable {i : Invocation} {w : Workspace} {user : Option String} {o : Output}

theorem run_eq_ok : (i.run w user).1 = .ok o ↔ ∃ policy,
    Settings.find w i.settings user = .ok policy ∧ (i.command.run w policy).1 = .ok o := by
  unfold run
  cases Settings.find w i.settings user with
  | error e => simp
  | ok policy => simp

theorem outcome_of_ok (h : (i.run w user).1 = .ok o) : (i.outcome w user).code = o.code ∧
    (i.outcome w user).out = o.text ∧ (i.outcome w user).file = o.file := by
  unfold outcome
  dsimp only
  rw [h]
  exact ⟨rfl, rfl, rfl⟩

theorem outcome_of_error {f : Failure} (h : (i.run w user).1 = .error f) :
    (i.outcome w user).code = 1 ∧ (i.outcome w user).out = "" ∧
      (i.outcome w user).file = none := by
  unfold outcome
  dsimp only
  rw [h]
  exact ⟨rfl, rfl, rfl⟩

/-- A run ends with the code 0 or 1; with 1 it writes nothing, and prints nothing unless it is asked
for a verdict; what it writes is the file that its command names. -/
theorem outcome_cases (i : Invocation) (w : Workspace) (user : Option String) :
    (i.outcome w user).code = 0 ∧ (∀ path text, (i.outcome w user).file = some (path, text) →
        i.command.written? = some path ∧ w.write path = .ok ()) ∨
      (i.outcome w user).code = 1 ∧ (i.outcome w user).file = none ∧
        (i.command.task ≠ .validate → (i.outcome w user).out = "") := by
  cases hrun : (i.run w user).1 with
  | error f =>
    obtain ⟨hcode, hout, hfile⟩ := outcome_of_error hrun
    exact .inr ⟨hcode, hfile, fun _ => hout⟩
  | ok o =>
    obtain ⟨hcode, -, hfile⟩ := outcome_of_ok hrun
    obtain ⟨policy, -, hcommand⟩ := run_eq_ok.1 hrun
    have hproper := Command.proper_of_run hcommand
    rw [hcode, hfile]
    rcases hproper.code with hzero | ⟨hone, htask⟩
    · exact .inl ⟨hzero, fun path text h => (hproper.file path text h).2⟩
    · refine .inr ⟨hone, ?_, fun hne => absurd htask hne⟩
      cases hfile : o.file with
      | none => rfl
      | some f =>
        have hzero := (hproper.file f.1 f.2 hfile).1
        rw [hone] at hzero
        cases hzero

end Invocation

namespace Workspace

theorem target_of_write {c : Contents} {path : String} (h : (ofContents c).write path = .ok ()) :
    ∃ place, c.target path = .ok place := by
  obtain ⟨place, hplace, -⟩ := bind_eq_ok.1 h
  exact ⟨place, hplace⟩

theorem write_of_target {c : Contents} {path : String} {place : List String}
    (h : c.target path = .ok place) : (ofContents c).write path = .ok () :=
  bind_eq_ok.2 ⟨place, h, rfl⟩

end Workspace

namespace Invocation

/-- The contents behind a run. -/
def leaves (i : Invocation) (c : Contents) (user : Option String) : Contents :=
  match (i.outcome (.ofContents c) user).file with
  | none => c
  | some (path, text) => c.write path text

variable {i : Invocation} {c : Contents} {user : Option String} {o : Output}

/-- A run that ends with the code 1 leaves the contents as they are. -/
theorem leaves_of_failed (h : (i.outcome (.ofContents c) user).code = 1) :
    i.leaves c user = c := by
  rcases i.outcome_cases (.ofContents c) user with ⟨hzero, -⟩ | ⟨-, hfile, -⟩
  · rw [h] at hzero
    cases hzero
  · rw [leaves, hfile]

/-- A run changes no file but the one that its command names. -/
theorem leaves_of_succeeded (h : (i.outcome (.ofContents c) user).code = 0) :
    (i.leaves c user).directories = c.directories ∧
      ∀ place, (i.leaves c user).files.lookup place ≠ c.files.lookup place →
        ∃ path, i.command.written? = some path ∧ c.target path = .ok place := by
  rcases i.outcome_cases (.ofContents c) user with ⟨-, hfile⟩ | ⟨hone, -⟩
  · cases hfile' : (i.outcome (.ofContents c) user).file with
    | none =>
      rw [leaves, hfile']
      exact ⟨rfl, fun place hne => absurd rfl hne⟩
    | some f =>
      obtain ⟨hpath, hwrite⟩ := hfile f.1 f.2 hfile'
      obtain ⟨target, htarget⟩ := Workspace.target_of_write hwrite
      rw [leaves, hfile']
      dsimp only
      refine ⟨by rw [Contents.write_eq htarget], fun place hne => ⟨f.1, hpath, ?_⟩⟩
      by_contra hother
      refine hne (Contents.lookup_write htarget ?_)
      rintro rfl
      exact hother htarget
  · rw [h] at hone
    cases hone

/-- The file of the command holds `text`, which spells `d` under the policy that the settings of the
run choose. -/
structure Decodes (i : Invocation) (c : Contents) (user : Option String) (policy : Policy)
    (text : String) (d : Document) : Prop where
  settings : Settings.find (.ofContents c) i.settings user = .ok policy
  read : (Workspace.ofContents c).readText i.command.file = .ok text
  decode : Document.decode policy text = .ok d

/-- Formatting in place succeeds where there is a document in a file that can be written. -/
theorem run_inPlace (htask : i.command.task = .onDocument (.format true)) :
    (i.run (.ofContents c) user).1 = .ok o ↔ ∃ policy text d, i.Decodes c user policy text d ∧
      (Workspace.ofContents c).write i.command.file = .ok () ∧
      o = { text := "", file := some (i.command.file, d.encode) } := by
  obtain ⟨⟨file, task⟩, settings, logLevel⟩ := i
  cases htask
  rw [run_eq_ok]
  constructor
  · rintro ⟨policy, hsettings, h⟩
    obtain ⟨text, d, hread, hdecode, hwrite, ho⟩ := Command.run_inPlace.1 h
    exact ⟨policy, text, d, ⟨hsettings, hread, hdecode⟩, hwrite, ho⟩
  · rintro ⟨policy, text, d, hd, hwrite, ho⟩
    exact ⟨policy, hd.settings, Command.run_inPlace.2 ⟨text, d, hd.read, hd.decode, hwrite, ho⟩⟩

/-- The document's own text holds the document in the same way. -/
theorem Decodes.write {policy : Policy} {text : String} {d : Document} {place : List String}
    (h : i.Decodes c user policy text d) (htarget : c.target i.command.file = .ok place) :
    i.Decodes (c.write i.command.file d.encode) user policy d.encode d := by
  obtain ⟨old, hread, hbefore⟩ := bind_eq_ok.1 h.read
  obtain ⟨v, -, hfrom⟩ := Document.readFrom_of_decode h.decode
  refine ⟨Settings.find_write hread htarget hbefore h.decode d.encode h.settings, ?_,
    Document.decode_encode_of_lawful hfrom.lawful hfrom.meets hfrom.readable⟩
  exact bind_eq_ok.2
    ⟨_, Contents.read_write_self hread htarget d.encode, Workspace.decodeText_toUTF8 _⟩

/-- Formatting in place leaves the document's own text, which spells the document under the same
settings and is left as it is by the same run. -/
theorem leaves_inPlace (htask : i.command.task = .onDocument (.format true))
    (h : (i.outcome (.ofContents c) user).code = 0) :
    ∃ policy text d, i.Decodes c user policy text d ∧
      i.Decodes (i.leaves c user) user policy d.encode d ∧
      (i.outcome (.ofContents (i.leaves c user)) user).code = 0 ∧
      i.leaves (i.leaves c user) user = i.leaves c user := by
  cases hrun : (i.run (.ofContents c) user).1 with
  | error f =>
    rw [(outcome_of_error hrun).1] at h
    cases h
  | ok o =>
    obtain ⟨policy, text, d, hd, hwrite, rfl⟩ := (run_inPlace htask).1 hrun
    obtain ⟨place, htarget⟩ := Workspace.target_of_write hwrite
    obtain ⟨old, hread, -⟩ := bind_eq_ok.1 hd.read
    have hleaves : i.leaves c user = c.write i.command.file d.encode := by
      rw [leaves, (outcome_of_ok hrun).2.2]
    have hshape := Contents.sameShape_write hread htarget d.encode
    have hagain := (run_inPlace htask).2 ⟨policy, d.encode, d, hd.write htarget,
      Workspace.write_of_target (hshape.target _ ▸ htarget), rfl⟩
    obtain ⟨hcode, -, hfile⟩ := outcome_of_ok hagain
    rw [hleaves]
    refine ⟨policy, text, d, hd, hd.write htarget, hcode, ?_⟩
    rw [leaves, hfile]
    exact Contents.write_write hread htarget d.encode

/-- What a run changes. With the code 1 it changes no file, and prints nothing unless it is asked
for a verdict. With the code 0 it changes at most the file that its command names; if the command
formats a document in place, the file then spells the same document under the same settings, and
the same run leaves it as it is. -/
theorem effect_outcome (i : Invocation) (c : Contents) (user : Option String) :
    ((i.outcome (.ofContents c) user).code = 0 ∨ (i.outcome (.ofContents c) user).code = 1) ∧
    ((i.outcome (.ofContents c) user).code = 1 →
      i.leaves c user = c ∧
        (i.command.task ≠ .validate → (i.outcome (.ofContents c) user).out = "")) ∧
    ((i.outcome (.ofContents c) user).code = 0 →
      (i.leaves c user).directories = c.directories ∧
        ∀ place, (i.leaves c user).files.lookup place ≠ c.files.lookup place →
          ∃ path, i.command.written? = some path ∧ c.target path = .ok place) ∧
    ((i.outcome (.ofContents c) user).code = 0 →
      i.command.task = .onDocument (.format true) →
      ∃ policy text d, i.Decodes c user policy text d ∧
        i.Decodes (i.leaves c user) user policy d.encode d ∧
        (i.outcome (.ofContents (i.leaves c user)) user).code = 0 ∧
        i.leaves (i.leaves c user) user = i.leaves c user) := by
  refine ⟨?_, fun hone => ⟨leaves_of_failed hone, ?_⟩, leaves_of_succeeded,
    fun hzero htask => leaves_inPlace htask hzero⟩
  · exact (i.outcome_cases (.ofContents c) user).imp And.left And.left
  · rcases i.outcome_cases (.ofContents c) user with ⟨hzero, -⟩ | ⟨-, -, hout⟩
    · rw [hone] at hzero
      cases hzero
    · exact hout

/-! ### A run -/

/-- What `format -i ring.json` asks for. -/
def formatRing : Invocation where
  command := ⟨"ring.json", .onDocument (.format true)⟩
  settings := none
  logLevel := Request.standardLogLevel

/-- A working directory with the file `ring.json`. -/
def ringContents (text : String) : Contents where
  directories := []
  files := [(["ring.json"], text.toUTF8)]

theorem names_ring : Workspace.names "ring.json" = ["ring.json"] := by
  decide +kernel

theorem read_ringContents (text : String) :
    (ringContents text).read "ring.json" = .ok text.toUTF8 := by
  rw [Contents.read_eq, names_ring]
  rfl

theorem target_ringContents (text : String) :
    (ringContents text).target "ring.json" = .ok ["ring.json"] := by
  have hslash : "ring.json".endsWith "/" = false := by decide +kernel
  unfold Contents.target
  rw [names_ring, hslash]
  rfl

theorem find_ringContents (text : String) :
    Settings.find (.ofContents (ringContents text)) none none = .ok .standard := by
  have hnames : Workspace.names Settings.fileName = [Settings.fileName] := by decide +kernel
  have hread : (Workspace.ofContents (ringContents text)).read Settings.fileName =
      .error .missing := by
    show (ringContents text).read Settings.fileName = _
    rw [Contents.read_eq, hnames]
    rfl
  rw [Settings.find, Workspace.holds, hread]
  rfl

/-- A document that can be decoded is formatted. -/
theorem code_formatRing {text : String} {d : Document}
    (h : Document.decode .standard text = .ok d) :
    (formatRing.outcome (.ofContents (ringContents text)) none).code = 0 := by
  have hread : (Workspace.ofContents (ringContents text)).readText "ring.json" = .ok text :=
    bind_eq_ok.2 ⟨_, read_ringContents text, Workspace.decodeText_toUTF8 text⟩
  have hwrite : (Workspace.ofContents (ringContents text)).write formatRing.command.file = .ok () :=
    Workspace.write_of_target (target_ringContents text)
  have hrun := (run_inPlace rfl).2
    ⟨.standard, text, d, ⟨find_ringContents text, hread, h⟩, hwrite, rfl⟩
  exact (outcome_of_ok hrun).1

/-- `effect_outcome` for a document of a later minor version that is formatted in place, twice. -/
theorem effect_outcome_formatRing :
    Request.ofArguments ["format", "-i", "ring.json"] = .run formatRing ∧
    (formatRing.outcome (.ofContents (ringContents Document.laterText)) none).code = 0 ∧
    formatRing.leaves (formatRing.leaves (ringContents Document.laterText) none) none =
      formatRing.leaves (ringContents Document.laterText) none := by
  have hcode :
      (formatRing.outcome (.ofContents (ringContents Document.laterText)) none).code = 0 := by
    have hsome := Document.isSome_decode_laterText
    cases hd : Document.decode .standard Document.laterText with
    | error e => rw [hd] at hsome; cases hsome
    | ok d => exact code_formatRing hd
  obtain ⟨-, -, -, hinPlace⟩ := effect_outcome formatRing (ringContents Document.laterText) none
  obtain ⟨policy, text, d, -, -, -, hagain⟩ := hinPlace hcode rfl
  exact ⟨by decide +kernel, hcode, hagain⟩

end Invocation

end Beamline
