import ElementCompiler.CommandLine.Run
import ElementCompiler.Proofs.Component.Shapes

set_option autoImplicit false

/-!
How the program ends when its file cannot be read as a component. A missing file and a refused
component are told in one line; a fault that no message is made for leaves the program.
-/

namespace ElementCompiler.CommandLine

open Attempt (report? exists_of_report?)

variable {m : Type → Type} [Monad m] {words : List Text} {request : Request}

/-- How the program ends: with what is shown, with a fault that is told, or by a fault as it is. -/
def endOf : Attempt Text → Attempt Exit
  | .ok shown => .ok ⟨0, shown, []⟩
  | .error f => if isTold f then .ok (told f) else .error f

/-- What is left to do with a component that was read. -/
def Request.finish (files : FileAccess m) (r : Request) (c : Component) : ExceptT Fault m Text := do
  let text ← ExceptT.mk (pure (r.render c))
  deliver files r.output text

theorem run_request [LawfulMonad m] (files : FileAccess m)
    (hrequest : Request.ofWords words = .ok request) (hlevel : request.logLevel.isSome = true) :
    run files words = endOf <$> (request.perform files).run := by
  have hsome : request.logLevel.isNone = false := Option.isNone_eq_false_iff.mpr hlevel
  rw [run, hrequest]
  simp only [hsome, Bool.false_eq_true, if_false]
  rw [map_eq_pure_bind]
  refine bind_congr fun result => ?_
  cases result with
  | ok shown => rfl
  | error f => rfl

theorem FileAccess.readFile_run [LawfulMonad m] (files : FileAccess m) {p : Path}
    (hname : checkName p = .ok ()) :
    (files.readFile p).run = (Except.mapError (fault · p)) <$> files.read p := by
  rw [readFile, hname, ExceptT.run_bind, ExceptT.run_mk, pure_bind, map_eq_pure_bind]
  refine (ExceptT.run_bind_lift _ _).trans (bind_congr fun r => ?_)
  cases r with
  | ok bytes => rfl
  | error problem => rfl

/-- The file is read before anything else is done, and what cannot be read as a component ends the
    work there. -/
theorem perform_run [LawfulMonad m] (files : FileAccess m) {p : Path}
    (hpath : Path.ofText request.file = p) (hname : FileAccess.checkName p = .ok ()) :
    (request.perform files).run = (do
      match ← files.read p with
      | .error problem => return .error (FileAccess.fault problem p)
      | .ok bytes =>
        match Component.ofBytes p.text bytes with
        | .error f => return .error f
        | .ok c => (request.finish files c).run) := by
  rw [Request.perform, hpath, ExceptT.run_bind, FileAccess.readFile_run files hname, bind_map_left]
  refine bind_congr fun r => ?_
  cases r with
  | error problem => rfl
  | ok bytes =>
    refine (ExceptT.run_bind _ _).trans ?_
    rw [ExceptT.run_mk, pure_bind]
    dsimp only
    cases Component.ofBytes p.text bytes with
    | error f => rfl
    | ok c => rfl

/-- The component in a file of a tree. -/
def FileTree.component (t : FileTree) (p : Path) : Attempt Component := do
  Component.ofBytes p.text (← (t.read p).mapError (FileAccess.fault · p))

theorem perform_unread {t : FileTree} {p : Path} (hpath : Path.ofText request.file = p)
    (hname : FileAccess.checkName p = .ok ()) {f : Fault} (h : t.component p = .error f) :
    (request.perform FileTree.access).run.run t = (.error f, t) := by
  rw [perform_run FileTree.access hpath hname]
  rw [FileTree.component] at h
  change StateT.run (match t.read p with
    | .error problem => _
    | .ok bytes => _) t = _
  cases hread : t.read p with
  | error problem =>
    rw [hread] at h
    cases h
    rfl
  | ok bytes =>
    rw [hread] at h
    change Component.ofBytes p.text bytes = _ at h
    dsimp only
    rw [h]
    rfl

/-- Without a component the program ends by the fault in its place, and the files are as they were. -/
theorem run_unread {t : FileTree} (hrequest : Request.ofWords words = .ok request)
    (hlevel : request.logLevel.isSome = true) {p : Path} (hpath : Path.ofText request.file = p)
    (hname : FileAccess.checkName p = .ok ()) {f : Fault} (h : t.component p = .error f) :
    (run FileTree.access words).run t = (endOf (.error f), t) := by
  rw [run_request FileTree.access hrequest hlevel, StateT.run_map, perform_unread hpath hname h]
  rfl

theorem endOf_told {f : Fault} (h : isTold f = true) :
    endOf (.error f) = .ok ⟨1, [], "Error: " ++ f.report.line ++ "\n"⟩ := by
  rw [endOf, if_pos h, told]

theorem endOf_crash {f : Fault} (h : f.report.category.isCrash = true) :
    endOf (.error f) = .error f := by
  have huntold : isTold f = false := by
    rw [isTold]
    cases hcategory : f.report.category <;> rw [hcategory] at h <;> first | rfl | cases h
  rw [endOf, huntold]
  rfl

/-- A file that cannot be opened ends the program with a message and the exit code one. What is in a
    file is read as a component only when its text, its JSON and the shape of every part allow it, and
    then every fault is told with a message in the same way. Without that a fault of a wrong value,
    kind, operation or encoding may be left to the caller. Nothing is written in any case. -/
theorem unread_file_ends_run (t : FileTree) (hrequest : Request.ofWords words = .ok request)
    (hlevel : request.logLevel.isSome = true) {p : Path} (hpath : Path.ofText request.file = p)
    (hname : FileAccess.checkName p = .ok ()) :
    (∀ problem, t.read p = .error problem →
      (run FileTree.access words).run t =
        (.ok ⟨1, [], "Error: " ++ (Fault.file problem p.text).report.line ++ "\n"⟩, t)) ∧
    ∀ bytes, t.read p = .ok bytes →
      match Component.ofBytes p.text bytes with
      | .ok _ => Component.Readable bytes
      | .error f =>
        (f.report.category = .serialization ∧
          (run FileTree.access words).run t =
            (.ok ⟨1, [], "Error: " ++ f.report.line ++ "\n"⟩, t)) ∨
        (¬Component.Readable bytes ∧ f.report.category.isCrash = true ∧
          (run FileTree.access words).run t = (.error f, t)) := by
  constructor
  · intro problem hproblem
    have hcomponent : t.component p = .error (.file problem p.text) := by
      rw [FileTree.component, hproblem]
      rfl
    rw [run_unread hrequest hlevel hpath hname hcomponent]
    exact congrArg (·, t) (endOf_told rfl)
  · intro bytes hbytes
    have hdemands := Component.ofBytes_demands p.text bytes
    cases hc : Component.ofBytes p.text bytes with
    | ok c =>
      rw [hc] at hdemands
      exact hdemands
    | error f =>
      have hcomponent : t.component p = .error f := by
        rw [FileTree.component, hbytes]
        exact hc
      rw [run_unread hrequest hlevel hpath hname hcomponent]
      rw [hc] at hdemands
      rcases hdemands with hserial | ⟨hshape, hcrash⟩
      · have htold : isTold f = true := by
          rw [isTold, hserial]
          rfl
        exact .inl ⟨hserial, congrArg (·, t) (endOf_told htold)⟩
      · exact .inr ⟨hshape, hcrash, congrArg (·, t) (endOf_crash hcrash)⟩

/-- A file in the current directory and nothing else. -/
def FileTree.ofFile (name : Text) (content : String) : FileTree :=
  .ofFiles [(Path.ofText name, content.toUTF8)]

theorem ofWords_card : Request.ofWords ["compile", "card.json"] =
    .ok { Request.initial with file := "card.json" } := by
  with_unfolding_all rfl

theorem checkName_card : FileAccess.checkName (Path.ofText "card.json") = .ok () := by
  with_unfolding_all rfl

def unknownKindText : String := "\x7b\"state\": \x7b\"open\": \x7b\"type\": \"flag\"\x7d\x7d\x7d"

theorem unread_file_ends_run_unknown_kind :
    let t := FileTree.ofFile "card.json" unknownKindText
    (run FileTree.access ["compile", "card.json"]).run t =
      (.ok ⟨1, [], "Error: Unknown state value type: 'flag' (SER001)\n"⟩, t) := by
  intro t
  -- the bytes are kept apart from their text, so that nothing below reads them once more
  obtain ⟨bytes, hread, hreport⟩ : ∃ bytes, t.read (Path.ofText "card.json") = .ok bytes ∧
      report? (Component.ofBytes (Path.ofText "card.json").text bytes) =
        some ⟨.serialization, "Unknown state value type: 'flag'", some "SER001", none⟩ :=
    ⟨unknownKindText.toUTF8, by with_unfolding_all rfl, by decide +kernel⟩
  obtain ⟨f, hf, hreport⟩ := exists_of_report? hreport
  have hend := (unread_file_ends_run t ofWords_card rfl rfl checkName_card).2 _ hread
  rw [hf] at hend
  dsimp only at hend
  rw [hreport] at hend
  rcases hend with ⟨_, hrun⟩ | ⟨_, hcrash, _⟩
  · exact hrun
  · cases hcrash

/-- A number among the parts of a component is asked for a field, and no message is made for it. -/
theorem hooks_number_is_not_told :
    let t := FileTree.ofFile "card.json" "\x7b\"name\": \"Card\", \"hooks\": 3\x7d"
    ∃ f, t.component (Path.ofText "card.json") = .error f ∧ f.report.category = .operation ∧
      (run FileTree.access ["compile", "card.json"]).run t = (.error f, t) := by
  intro t
  have hreport : report? (t.component (Path.ofText "card.json")) =
      some Fault.missingOperation.report := by
    decide +kernel
  obtain ⟨f, hf, hreport⟩ := exists_of_report? hreport
  refine ⟨f, hf, by rw [hreport]; rfl, ?_⟩
  rw [run_unread ofWords_card rfl rfl checkName_card hf, endOf_crash (by rw [hreport]; rfl)]

end ElementCompiler.CommandLine
