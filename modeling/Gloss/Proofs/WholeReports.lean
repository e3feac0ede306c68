import Gloss.Command
import Gloss.FileTree
import Gloss.Proofs.Strictness
import Mathlib.Data.List.Forall2

/-!
# Whole reports

A command that lists annotations, shows what they belong to or looks for problems works through all
of its inputs before it writes. It fails for three reasons (`Command.Fails`): an argument stands for
nothing, an input cannot be read as text, or, when bindings are asked for, a strict dialect rejects
an annotation. Then nothing is written.

Otherwise the report has one entry for each input, in their order (`Request.run_whole`), and the
entries stand on lines of their own in either format. The command ends well, except that a check
tells of problems by the number that it ends with.

What an input holds is a fact about its bytes (`Input.Holds`): they are those of one text, or they
are those of none or cannot be had, and then the input cannot be read. Over one input the failures
are those of `Command.readable` and `Command.bindings`, and `exists_mapM_cases` carries them to all
inputs.
-/

namespace Gloss

/-! ## All inputs or the first failure -/

/-- Work on a list either fails at one of its items or is done on all of them. -/
theorem exists_mapM_cases {α β ε : Type} (f : α → Except ε β) (xs : List α) :
    (∃ e, xs.mapM f = .error e ∧ ∃ x ∈ xs, f x = .error e) ∨
      ∃ ys, xs.mapM f = .ok ys ∧ List.Forall₂ (fun x y => f x = .ok y) xs ys := by
  induction xs with
  | nil => exact .inr ⟨[], rfl, .nil⟩
  | cons x xs ih =>
    rw [List.mapM_cons]
    cases first : f x with
    | error e => exact .inl ⟨e, rfl, x, .head _, first⟩
    | ok y =>
      rcases ih with ⟨e, failed, z, member, here⟩ | ⟨ys, done, each⟩
      · rw [failed]
        exact .inl ⟨e, rfl, z, .tail _ member, here⟩
      · rw [done]
        exact .inr ⟨y :: ys, rfl, .cons first each⟩

/-- What holds of every item that goes with another holds of all of them. -/
theorem forall_mem_of_forall₂ {α β : Type} {R : α → β → Prop} {P : α → Prop} {xs : List α}
    {ys : List β} (each : List.Forall₂ R xs ys) (holds : ∀ x y, R x y → P x) : ∀ x ∈ xs, P x :=
  ((List.forall₂_and_left ..).mp (each.imp fun x y here => ⟨holds x y here, here⟩)).1

/-! ## What an input holds -/

theorem Disk.decode_eq_ok_iff {bytes : ByteArray} {text : String} :
    decode bytes = .ok text ↔ bytes = text.toUTF8 := by
  unfold decode String.fromUTF8?
  by_cases valid : bytes.IsValidUTF8
  · rw [dif_pos valid, Except.ok.injEq, ← String.toByteArray_inj]
    rfl
  · rw [dif_neg valid]
    refine iff_of_false nofun ?_
    rintro rfl
    exact valid text.isValidUTF8

namespace Input

/-- The bytes of an input. -/
def bytes (disk : Disk Id) : Input → Except ReadFault ByteArray
  | stdin => disk.stdin.run
  | file path => (disk.read path).run

/-- The bytes of an input are those of a text. -/
def Holds (disk : Disk Id) (i : Input) (text : String) : Prop := i.bytes disk = .ok text.toUTF8

variable {disk : Disk Id} {i : Input} {text : String}

theorem Holds.unique {text' : String} (holds : i.Holds disk text) (holds' : i.Holds disk text') :
    text = text' :=
  String.toByteArray_inj.mp (Except.ok.inj (holds.symm.trans holds'))

/-- An input is read as the text whose bytes it holds. -/
theorem text_eq_ok_iff : (i.text disk).run = .ok text ↔ i.Holds disk text := by
  have decoded : (i.text disk).run = i.bytes disk >>= Disk.decode := by cases i <;> rfl
  rw [decoded, Holds]
  cases i.bytes disk with
  | error fault => exact iff_of_false nofun nofun
  | ok bytes =>
    rw [Except.ok.injEq]
    exact Disk.decode_eq_ok_iff

/-- An input is not read when its bytes are missing, or when they are those of no text. -/
theorem ofText_cases (disk : Disk Id) (i : Input) :
    (∃ fault, Source.ofText i (i.text disk).run = .error ⟨i, fault⟩ ∧
        ∀ text, ¬ i.Holds disk text) ∨
      ∃ text, Source.ofText i (i.text disk).run = .ok ⟨i.name, text⟩ ∧ i.Holds disk text := by
  cases read : (i.text disk).run with
  | error fault =>
    refine .inl ⟨fault, rfl, fun text holds => ?_⟩
    rw [text_eq_ok_iff.mpr holds] at read
    cases read
  | ok text => exact .inr ⟨text, rfl, text_eq_ok_iff.mp read⟩

end Input

/-! ## Settings -/

namespace Settings

theorem hashbang_ofLayers (layers : List Layer) :
    (ofLayers layers).dialect.hashbang ≠ some '\r' := by
  have kept (s : Settings) :
      (layers.foldl (fun s l => l.apply s) s).dialect.hashbang = s.dialect.hashbang := by
    induction layers generalizing s with
    | nil => rfl
    | cons l layers ih => exact ih (l.apply s)
  rw [ofLayers, kept]
  cases (layers.filterMap (·.preset)).getLast?.getD .hash <;> decide

theorem eq_of_check {layers : List Layer} {s : Settings} (checked : check layers = .ok s) :
    s = ofLayers layers := by
  unfold check at checked
  split at checked
  · cases checked
  · exact (Except.ok.inj checked).symm

/-- No settings have a carriage return as the hashbang marker. -/
theorem hashbang_of_load {disk : Disk Id} {path : Option String} {line : Layer} {s : Settings}
    (loaded : (load disk path line).run = .ok s) : s.dialect.hashbang ≠ some '\r' := by
  unfold load at loaded
  rw [Id.run_bind] at loaded
  split at loaded
  · rw [eq_of_check loaded]
    exact hashbang_ofLayers _
  · next file _ =>
    rw [Id.run_bind, Id.run_pure] at loaded
    cases layer : layerOf file (disk.readText file).run with
    | error fault =>
      rw [layer] at loaded
      cases loaded
    | ok layer' =>
      rw [layer] at loaded
      rw [eq_of_check loaded]
      exact hashbang_ofLayers _

end Settings

/-! ## Rejected annotations -/

/-- The dialect is strict, and an annotation of the text belongs to nothing but the file. -/
def Dialect.Rejects (d : Dialect) (text : String) : Prop :=
  d.strict = true ∧ ∃ a, Analysis.ofSource? { d with strict := false } text = some (.ok a) ∧
    a.table.fallbacks ≠ []

/-- Something is wrong with the annotations of the text. -/
def Dialect.FindsProblem (d : Dialect) (text : String) : Prop :=
  (Reading.ofSource d text).malformed ≠ [] ∨ d.Rejects text

theorem Table.Groups.fallbacks_eq_nil_iff {t : Table} {bound : List (Target × Attachment)}
    (groups : t.Groups bound) :
    t.fallbacks = [] ↔ Attachment.firstFallback? bound = none := by
  constructor
  · intro empty
    cases first : Attachment.firstFallback? bound with
    | none => rfl
    | some a =>
      obtain ⟨b, found, rfl⟩ := Option.map_eq_some_iff.mp first
      have rule := List.find?_some (p := fun b : Target × Attachment => b.2.rule == .fallback) found
      have member := groups.mem_fallbacks.mpr
        ⟨b, List.mem_of_find?_eq_some found, rfl, beq_iff_eq.mp rule⟩
      rw [empty] at member
      cases member
  · exact groups.fallbacks_eq_nil

/-- An analysis fails exactly when an annotation is rejected. -/
theorem Analysis.ofSource_cases {d : Dialect} (marker : d.hashbang ≠ some '\r') (text : String) :
    (d.Rejects text ∧ ∃ e, ofSource d text = .error e) ∨
      (¬ d.Rejects text ∧ ∃ a, ofSource d text = .ok a) := by
  let reading := Reading.ofSource d text
  let bound := Attachment.bindings (.ofTokens reading.tokens) reading.notes.toArray [] 0
    reading.tokens
  have groups := Attachment.table_groups bound
  have lenient : ofSource? { d with strict := false } text =
      some (.ok ⟨reading.notes, Attachment.table bound, reading.malformed⟩) := by
    have marker' : ({ d with strict := false } : Dialect).hashbang ≠ some '\r' := marker
    rw [ofSource?_eq_some marker', ofSource, Reading.ofSource_strict]
    rfl
  have rejects : d.Rejects text ↔ Attachment.rejected? d bound ≠ none := by
    rw [Dialect.Rejects, lenient, Attachment.rejected?]
    simp only [Option.some.injEq, Except.ok.injEq, ↓existsAndEq, true_and]
    rw [Ne, groups.fallbacks_eq_nil_iff]
    cases d.strict <;> simp
  rw [rejects, ofSource, ofReading, Attachment.attach]
  cases Attachment.rejected? d bound with
  | none => exact .inr ⟨by simp, _, rfl⟩
  | some a => exact .inl ⟨by simp, _, rfl⟩

/-! ## Verdicts -/

namespace Report.Verdict

/-- A verdict has problems exactly when something is wrong. -/
theorem problems_eq_nil_iff {d : Dialect} (marker : d.hashbang ≠ some '\r') (s : Source) :
    (ofSource d s).problems = [] ↔ ¬ d.FindsProblem s.text := by
  rcases Analysis.ofSource_cases marker s.text with ⟨rejects, e, failed⟩ | ⟨accepts, a, done⟩
  · have problems : (ofSource d s).problems =
        (Reading.ofSource d s.text).malformed.map .malformed ++ [.ambiguous e] := by
      rw [Analysis.ofSource] at failed
      simp only [ofSource, failed]
    simp [problems, Dialect.FindsProblem, rejects]
  · have problems : (ofSource d s).problems =
        (Reading.ofSource d s.text).malformed.map .malformed := by
      rw [Analysis.ofSource] at done
      simp only [ofSource, done]
    simp [problems, Dialect.FindsProblem, accepts]

theorem total_eq_zero_iff {vs : List Verdict} : total vs = 0 ↔ ∀ v ∈ vs, v.problems = [] := by
  rw [total, List.length_eq_zero_iff, List.flatMap_eq_nil_iff]

end Report.Verdict

/-! ## Reports -/

namespace Command

open Report

/-- Why a command has nothing to report. -/
inductive Fails (disk : Disk Id) (s : Settings) (c : Command) : Prop
  | inputs {fault : Input.Fault} :
    (Input.collect disk s c.paths).run = .error fault → Fails disk s c
  | unreadable {inputs : List Input} {i : Input} :
    (Input.collect disk s c.paths).run = .ok inputs → i ∈ inputs →
    (∀ text, ¬ i.Holds disk text) → Fails disk s c
  | rejected {paths : List String} {inputs : List Input} {i : Input} {text : String} :
    c = .attach paths → (Input.collect disk s c.paths).run = .ok inputs → i ∈ inputs →
    i.Holds disk text → s.dialect.Rejects text → Fails disk s c

/-- What the report of a command says of an input. -/
def Entry (d : Dialect) (s : Source) (entry : Data) : Command → Prop
  | scan _ => Reading.ofSource? d s.text ≠ none ∧ entry = (Listing.ofSource d s).toData
  | attach _ => ∃ a, Analysis.ofSource? d s.text = some (.ok a) ∧ entry = Bindings.toData ⟨s, a⟩
  | check _ => Reading.ofSource? d s.text ≠ none ∧ entry = (Verdict.ofSource d s).toData
  | strip _ => False

/-- The command is a check, and it finds a problem in one of the inputs. -/
def Alarms (disk : Disk Id) (d : Dialect) (inputs : List Input) (c : Command) : Prop :=
  (∃ paths, c = .check paths) ∧
    ∃ i ∈ inputs, ∃ text, i.Holds disk text ∧ d.FindsProblem text

/-- The outcome of a command that reports on all of its inputs, with one entry for each. -/
structure Whole (disk : Disk Id) (d : Dialect) (format : Format) (c : Command)
    (inputs : List Input) (entries : List Data) (o : Outcome) : Prop where
  each : List.Forall₂ (fun i entry => ∃ text, i.Holds disk text ∧
    c.Entry d ⟨i.name, text⟩ entry) inputs entries
  json : format = .json → o.out = (Data.list entries).toJson ++ "\n"
  yaml : format = .yaml → o.out = (Data.list entries).toYaml ++ "\n"
  /-- One entry after the other, each on lines of its own. -/
  jsonRows : format = .json → entries ≠ [] → o.out =
    "[\n  " ++ String.intercalate ",\n  " (entries.map (Json.write 1)) ++ "\n]" ++ "\n"
  yamlRows : format = .yaml → entries ≠ [] → o.out =
    String.ofList (entries.flatMap Yaml.row) ++ "\n"
  code : c.Alarms disk d inputs ∧ o.code = 1 ∨ ¬ c.Alarms disk d inputs ∧ o.code = 0

variable {disk : Disk Id} {s : Settings} {d : Dialect} {inputs : List Input}

/-- The inputs as they are read from a disk. -/
def sources (disk : Disk Id) (inputs : List Input) : List (Except Unreadable Source) :=
  inputs.map fun i => Source.ofText i (i.text disk).run

theorem readable_eq_ok {i : Input} {source : Source}
    (read : readable (Source.ofText i (i.text disk).run) = .ok source) :
    ∃ text, i.Holds disk text ∧ source = ⟨i.name, text⟩ := by
  rcases i.ofText_cases disk with ⟨fault, failed, -⟩ | ⟨text, done, holds⟩
  · rw [failed] at read
    cases read
  · rw [done] at read
    exact ⟨text, holds, (Except.ok.inj read).symm⟩

theorem not_holds_of_readable {i : Input} {failure : Failure}
    (failed : readable (Source.ofText i (i.text disk).run) = .error failure) :
    ∀ text, ¬ i.Holds disk text := by
  rcases i.ofText_cases disk with ⟨fault, -, missing⟩ | ⟨text, done, -⟩
  · exact missing
  · rw [done] at failed
    cases failed

/-- The inputs are read, all of them or up to the first that cannot be read. -/
theorem exists_readable_cases (disk : Disk Id) (inputs : List Input) :
    (∃ failure, (sources disk inputs).mapM readable = .error failure ∧
        ∃ i ∈ inputs, ∀ text, ¬ i.Holds disk text) ∨
      ∃ read, (sources disk inputs).mapM readable = .ok read ∧
        List.Forall₂ (fun i source => ∃ text, i.Holds disk text ∧
          source = ⟨i.name, text⟩) inputs read := by
  rw [sources, List.mapM_map]
  rcases exists_mapM_cases (readable ∘ fun i => Source.ofText i (i.text disk).run) inputs with
    ⟨failure, failed, i, member, here⟩ | ⟨read, done, each⟩
  · exact .inl ⟨failure, failed, i, member, not_holds_of_readable here⟩
  · exact .inr ⟨read, done, each.imp fun i source => readable_eq_ok⟩

/-- The inputs are bound, all of them or up to the first that cannot be read or that has a rejected
annotation. -/
theorem exists_bindings_cases (marker : d.hashbang ≠ some '\r') (disk : Disk Id)
    (inputs : List Input) :
    (∃ failure, (sources disk inputs).mapM (bindings d) = .error failure ∧
        ∃ i ∈ inputs, (∀ text, ¬ i.Holds disk text) ∨
          ∃ text, i.Holds disk text ∧ d.Rejects text) ∨
      ∃ bound, (sources disk inputs).mapM (bindings d) = .ok bound ∧
        List.Forall₂ (fun i b => ∃ text a, i.Holds disk text ∧ ¬ d.Rejects text ∧
          Analysis.ofSource d text = .ok a ∧ b = ⟨⟨i.name, text⟩, a⟩) inputs bound := by
  have step (i : Input) :
      (∃ failure, bindings d (Source.ofText i (i.text disk).run) = .error failure ∧
        ∀ text, ¬ i.Holds disk text) ∨
      ∃ text, i.Holds disk text ∧
        bindings d (Source.ofText i (i.text disk).run) =
          ((Analysis.ofSource d text).map (Bindings.mk ⟨i.name, text⟩)).mapError
            (.ambiguous i.name) := by
    rcases i.ofText_cases disk with ⟨fault, failed, missing⟩ | ⟨text, done, holds⟩
    · exact .inl ⟨.unreadable ⟨i, fault⟩, by rw [failed]; rfl, missing⟩
    · exact .inr ⟨text, holds, by rw [done]; rfl⟩
  rw [sources, List.mapM_map]
  rcases exists_mapM_cases (bindings d ∘ fun i => Source.ofText i (i.text disk).run) inputs with
    ⟨failure, failed, i, member, here⟩ | ⟨bound, done, each⟩
  · refine .inl ⟨failure, failed, i, member, ?_⟩
    rcases step i with ⟨-, -, missing⟩ | ⟨text, read, bind⟩
    · exact .inl missing
    · rcases Analysis.ofSource_cases marker text with ⟨rejects, -⟩ | ⟨-, a, analysed⟩
      · exact .inr ⟨text, read, rejects⟩
      · rw [Function.comp_apply, bind, analysed] at here
        cases here
  · refine .inr ⟨bound, done, each.imp fun i b here => ?_⟩
    rw [Function.comp_apply] at here
    rcases step i with ⟨fault, failed, -⟩ | ⟨text, read, bind⟩
    · rw [failed] at here
      cases here
    · rcases Analysis.ofSource_cases marker text with ⟨-, e, analysed⟩ | ⟨accepts, a, analysed⟩
      · rw [bind, analysed] at here
        cases here
      · rw [bind, analysed] at here
        exact ⟨text, a, read, accepts, analysed, (Except.ok.inj here).symm⟩

/-- A report of the entries is whole. -/
theorem Whole.of_written {c : Command} {format : Format} {entries : List Data}
    {lines warnings : List String} {code : Nat}
    (each : List.Forall₂ (fun i entry => ∃ text, i.Holds disk text ∧
      c.Entry d ⟨i.name, text⟩ entry) inputs entries)
    (ends : c.Alarms disk d inputs ∧ code = 1 ∨ ¬ c.Alarms disk d inputs ∧ code = 0) :
    c.Whole disk d format inputs entries
      (written format (.list entries) lines warnings code) := by
  refine ⟨each, fun json => by rw [json]; rfl, fun yaml => by rw [yaml]; rfl, ?_, ?_, ?_⟩
  · rintro rfl nonempty
    rw [← Data.toJson_list nonempty]
    rfl
  · rintro rfl nonempty
    rw [← Data.toYaml_list nonempty]
    rfl
  · cases format <;> exact ends

/-- A check ends with an alarm exactly when the verdict on one of the inputs has problems. -/
theorem alarms_check_iff (marker : d.hashbang ≠ some '\r') (paths : List String)
    {read : List Source}
    (each : List.Forall₂ (fun i source => ∃ text, i.Holds disk text ∧
      source = ⟨i.name, text⟩) inputs read) :
    (check paths).Alarms disk d inputs ↔ Verdict.total (read.map (Verdict.ofSource d)) ≠ 0 := by
  have same : (∃ i ∈ inputs, ∃ text, i.Holds disk text ∧ d.FindsProblem text) ↔
      ∃ source ∈ read, d.FindsProblem source.text := by
    induction each with
    | nil => simp
    | cons here _ ih =>
      obtain ⟨text, holds, rfl⟩ := here
      rw [List.exists_mem_cons_iff, List.exists_mem_cons_iff, ih]
      refine or_congr_left ⟨fun found => ?_, fun found => ⟨text, holds, found⟩⟩
      obtain ⟨text', holds', found⟩ := found
      rwa [holds.unique holds']
  have some : ∃ paths', check paths = check paths' := ⟨paths, rfl⟩
  rw [Alarms, same, Ne, Verdict.total_eq_zero_iff, List.forall_mem_map]
  simp only [some, true_and, Verdict.problems_eq_nil_iff marker, not_forall, not_not, exists_prop]

/-- What a report says of the inputs that were read has one entry for each. -/
theorem forall₂_entries {c : Command} {read : List Source} {entry : Source → Data}
    (gives : ∀ source, c.Entry d source (entry source))
    (each : List.Forall₂ (fun i source => ∃ text, i.Holds disk text ∧
      source = ⟨i.name, text⟩) inputs read) :
    List.Forall₂ (fun i entry => ∃ text, i.Holds disk text ∧
      c.Entry d ⟨i.name, text⟩ entry) inputs (read.map entry) := by
  apply List.forall₂_map_right_iff.mpr
  refine each.imp fun i source here => ?_
  obtain ⟨text, ok, rfl⟩ := here
  exact ⟨text, ok, gives _⟩

/-- The work of a command fails at one of the inputs, or it is a whole report. -/
theorem exists_work_cases (marker : d.hashbang ≠ some '\r') (disk : Disk Id) (inputs : List Input)
    (format : Format) (ink : Ink) {c : Command} (reports : ∀ path, c ≠ strip path) :
    (∃ failure, c.work d format ink (sources disk inputs) = .error failure ∧
        ∃ i ∈ inputs, (∀ text, ¬ i.Holds disk text) ∨
          (∃ paths, c = attach paths) ∧ ∃ text, i.Holds disk text ∧ d.Rejects text) ∨
      ∃ o entries, c.work d format ink (sources disk inputs) = .ok o ∧
        c.Whole disk d format inputs entries o ∧
        ∀ i ∈ inputs, ∃ text, i.Holds disk text ∧
          ((∃ paths, c = attach paths) → ¬ d.Rejects text) := by
  have readings (text : String) : Reading.ofSource? d text ≠ none := by
    rw [Reading.ofSource?_eq_some marker]
    exact Option.some_ne_none _
  have silent (other : ∀ paths, c ≠ check paths) : ¬ c.Alarms disk d inputs := by
    intro alarms
    obtain ⟨⟨paths, same⟩, -⟩ := alarms
    exact other paths same
  cases c with
  | strip path => exact absurd rfl (reports path)
  | scan paths =>
    rcases exists_readable_cases disk inputs with
      ⟨failure, failed, i, member, here⟩ | ⟨read, done, each⟩
    · exact .inl ⟨failure, by rw [work, failed]; rfl, i, member, .inl here⟩
    · refine .inr ⟨_, _, by rw [work, done]; rfl, .of_written ?_ (.inr ⟨silent nofun, rfl⟩), ?_⟩
      · rw [List.map_map]
        exact forall₂_entries (fun source => ⟨readings source.text, rfl⟩) each
      · refine forall_mem_of_forall₂ each fun i source here => ?_
        obtain ⟨text, ok, -⟩ := here
        exact ⟨text, ok, nofun⟩
  | check paths =>
    rcases exists_readable_cases disk inputs with
      ⟨failure, failed, i, member, here⟩ | ⟨read, done, each⟩
    · exact .inl ⟨failure, by rw [work, failed]; rfl, i, member, .inl here⟩
    · have alarms := alarms_check_iff marker paths each
      refine .inr ⟨_, _, by rw [work, done]; rfl, .of_written ?_ ?_, ?_⟩
      · rw [List.map_map]
        exact forall₂_entries (fun source => ⟨readings source.text, rfl⟩) each
      · rw [alarms]
        by_cases none : Verdict.total (read.map (Verdict.ofSource d)) = 0
        · exact .inr ⟨fun some => some none, if_pos none⟩
        · exact .inl ⟨none, if_neg none⟩
      · refine forall_mem_of_forall₂ each fun i source here => ?_
        obtain ⟨text, ok, -⟩ := here
        exact ⟨text, ok, nofun⟩
  | attach paths =>
    rcases exists_bindings_cases marker disk inputs with
      ⟨failure, failed, i, member, here⟩ | ⟨bound, done, each⟩
    · refine .inl ⟨failure, by rw [work, failed]; rfl, i, member, ?_⟩
      rcases here with unread | rejected
      · exact .inl unread
      · exact .inr ⟨⟨paths, rfl⟩, rejected⟩
    · refine .inr ⟨_, _, by rw [work, done]; rfl, .of_written ?_ (.inr ⟨silent nofun, rfl⟩), ?_⟩
      · apply List.forall₂_map_right_iff.mpr
        refine each.imp fun i b here => ?_
        obtain ⟨text, a, ok, -, analysed, rfl⟩ := here
        refine ⟨text, ok, a, ?_, rfl⟩
        rw [Analysis.ofSource?_eq_some marker, analysed]
      · refine forall_mem_of_forall₂ each fun i b here => ?_
        obtain ⟨text, a, ok, accepts, -⟩ := here
        exact ⟨text, ok, fun _ => accepts⟩

end Command

/-! ## Requests -/

namespace Request

theorem read_eq (disk : Disk Id) (s : Settings) (c : Command) :
    (read disk s c).run = (Input.collect disk s c.paths).run.map (Command.sources disk) := by
  rw [read, Id.run_bind]
  cases (Input.collect disk s c.paths).run with
  | error fault => rfl
  | ok inputs =>
    have loaded : (Source.load disk inputs).run = Command.sources disk inputs := List.idRun_mapM
    simp only [Id.run_bind, Id.run_pure, loaded, Except.map]

/-- A request with settings is a command on its inputs. -/
theorem run_eq {disk : Disk Id} {r : Request} {s : Settings} (ink : Ink)
    (loaded : (Settings.load disk r.settingsFile r.layer).run = .ok s) :
    (r.run disk ink).run = r.command.outcome s.dialect r.format ink
      ((Input.collect disk s r.command.paths).run.map (Command.sources disk)) := by
  rw [run, Id.run_bind, loaded, ← read_eq]
  rfl

/-- Listing annotations, showing what they belong to and checking them is all or nothing. A command
that fails writes nothing and ends with one. Else its report has one entry for each input, and it
ends with zero unless it is a check that finds a problem. -/
theorem run_whole {disk : Disk Id} {r : Request} {s : Settings} (ink : Ink)
    (loaded : (Settings.load disk r.settingsFile r.layer).run = .ok s)
    (reports : ∀ path, r.command ≠ .strip path) :
    (r.command.Fails disk s ∧ (r.run disk ink).run.out = "" ∧ (r.run disk ink).run.code = 1) ∨
      (¬ r.command.Fails disk s ∧ ∃ inputs entries,
        (Input.collect disk s r.command.paths).run = .ok inputs ∧
        r.command.Whole disk s.dialect r.format inputs entries (r.run disk ink).run) := by
  have marker := Settings.hashbang_of_load loaded
  rw [run_eq ink loaded, Command.outcome]
  cases collected : (Input.collect disk s r.command.paths).run with
  | error fault => exact .inl ⟨.inputs collected, rfl, rfl⟩
  | ok inputs =>
    have work : (Except.map (Command.sources disk) (.ok inputs)).mapError Failure.inputs >>=
        r.command.work s.dialect r.format ink =
          r.command.work s.dialect r.format ink (Command.sources disk inputs) := rfl
    rw [work]
    rcases Command.exists_work_cases marker disk inputs r.format ink reports with
      ⟨failure, failed, i, member, here⟩ | ⟨o, entries, done, whole, fine⟩
    · rw [failed]
      refine .inl ⟨?_, rfl, rfl⟩
      rcases here with missing | ⟨⟨paths, attach⟩, text, holds, rejects⟩
      · exact .unreadable collected member missing
      · exact .rejected attach collected member holds rejects
    · rw [done]
      refine .inr ⟨fun fails => ?_, inputs, entries, rfl, whole⟩
      cases fails with
      | inputs other =>
        rw [collected] at other
        cases other
      | @unreadable _ i same member missing =>
        obtain rfl := Except.ok.inj (collected.symm.trans same)
        obtain ⟨text, holds, -⟩ := fine i member
        exact missing text holds
      | @rejected paths _ i text attach same member holds rejects =>
        obtain rfl := Except.ok.inj (collected.symm.trans same)
        obtain ⟨text', holds', accepts⟩ := fine i member
        obtain rfl := holds.unique holds'
        exact accepts ⟨paths, attach⟩ rejects

/-- A check of a file with a malformed annotation and of the standard input. -/
theorem run_whole_check :
    (Settings.load ((FileTree.directory [("a.js", .file "x #<".toUTF8)]).disk "let x #T".toUTF8)
        none .empty).run = .ok (.ofPreset .hash) ∧
      (∀ path, Command.check ["a.js", "-"] ≠ .strip path) ∧
      ∃ inputs entries,
        (Input.collect ((FileTree.directory [("a.js", .file "x #<".toUTF8)]).disk
          "let x #T".toUTF8) (.ofPreset .hash) ["a.js", "-"]).run = .ok inputs ∧
        (Command.check ["a.js", "-"]).Whole
          ((FileTree.directory [("a.js", .file "x #<".toUTF8)]).disk "let x #T".toUTF8) .hash .json
          inputs entries
          (run ((FileTree.directory [("a.js", .file "x #<".toUTF8)]).disk "let x #T".toUTF8) .plain
            ⟨.check ["a.js", "-"], none, .empty, .json⟩).run := by
  have loaded : (Settings.load ((FileTree.directory [("a.js", .file "x #<".toUTF8)]).disk
      "let x #T".toUTF8) none .empty).run = .ok (.ofPreset .hash) := by
    decide +kernel
  have written : (run ((FileTree.directory [("a.js", .file "x #<".toUTF8)]).disk
      "let x #T".toUTF8) .plain ⟨.check ["a.js", "-"], none, .empty, .json⟩).run.out ≠ "" := by
    decide +kernel
  rcases run_whole (r := ⟨.check ["a.js", "-"], none, .empty, .json⟩) .plain loaded nofun with
    ⟨-, silent, -⟩ | ⟨-, whole⟩
  · exact absurd silent written
  · exact ⟨loaded, nofun, whole⟩

end Request

end Gloss
