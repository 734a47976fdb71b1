import Mathlib.Logic.Function.Basic
import Mathlib.Tactic.SplitIfs
import ProcLang.Command.Console
import ProcLang.Command.FileTree
import ProcLang.Proofs.Simulation

/-! # What a run stores

A run reads one file and, if that file has a module, replaces another one or the same by the
listing. About files nothing is used but that reading gives what a file holds, and that writing
replaces a file as a whole or changes nothing. The tree of files is like that. -/
namespace ProcLang

theorem bind_eq_ok {ε α β : Type} {x : Except ε α} {f : α → Except ε β} {b : β}
    (h : x >>= f = .ok b) : ∃ a, x = .ok a ∧ f a = .ok b := by
  cases x with
  | error e => cases h
  | ok a => exact ⟨a, rfl, h⟩

/-- The names that lead to a spot, unless it is above the working directory. -/
def Spot.names? : Spot → Option (List String)
  | .inside names => some names
  | .outside => none

def Spot.child? (spot : Spot) (name : String) : Option (List String) :=
  if name = "." then spot.names?
  else if name = ".." then spot.parent.names?
  else spot.names?.map (· ++ [name])

namespace FileTree

variable {tree tree' : FileTree} {path : String} {content : Bytes}

/-- The names of the file that has a path, or would have it. The last segment is not walked. -/
def locate (tree : FileTree) (path : String) : Option (List String) :=
  match start path >>= (Path.segments path).dropLast.foldlM tree.enter,
    (Path.segments path).getLast? with
  | .ok spot, some name => spot.child? name
  | _, _ => none

def content? (tree : FileTree) (names : List String) : Option Bytes :=
  match tree.node? names with
  | some (.file content) => some content
  | _ => none

theorem names?_of_enter {spot spot' : Spot} {name : String}
    (h : tree.enter spot name = .ok spot') : spot'.names? = spot.child? name := by
  unfold enter at h
  unfold Spot.child?
  split at h
  · cases h
  · cases h
  · split_ifs at h ⊢
    · cases h
      rfl
    · cases h
      rfl
    · cases spot with
      | outside => cases h
      | inside names =>
        dsimp only at h
        split_ifs at h
        cases h
        rfl

theorem at?_of_start {spot : Spot} (h : start path = .ok spot) :
    tree.at? spot = some .directory := by
  unfold start at h
  split_ifs at h <;> cases h <;> rfl

theorem names?_of_at? {spot : Spot} (h : tree.at? spot = some (.file content)) :
    ∃ names, spot.names? = some names ∧ tree.content? names = some content := by
  cases spot with
  | outside => cases h
  | inside names =>
    refine ⟨names, rfl, ?_⟩
    have hnode : tree.node? names = some (.file content) := h
    rw [content?, hnode]

theorem read_eq_ok (h : tree.read path = .ok content) :
    ∃ names, tree.locate path = some names ∧ tree.content? names = some content := by
  obtain ⟨first, hfirst, h⟩ := bind_eq_ok h
  obtain ⟨spot, hspot, h⟩ := bind_eq_ok h
  have hfile : tree.at? spot = some (.file content) := by
    split at h
    · cases h
    · cases h
    · split_ifs at h
      cases h
      assumption
  rcases List.eq_nil_or_concat (Path.segments path) with hs | ⟨segments, name, hs⟩
  · rw [hs] at hspot
    cases hspot
    rw [at?_of_start hfirst] at hfile
    cases hfile
  · rw [List.concat_eq_append] at hs
    rw [hs, List.foldlM_append] at hspot
    obtain ⟨dir, hdir, hspot⟩ := bind_eq_ok hspot
    obtain ⟨spot', henter, hspot⟩ := bind_eq_ok hspot
    cases hspot
    obtain ⟨names, hnames, hcontent⟩ := names?_of_at? hfile
    refine ⟨names, ?_, hcontent⟩
    rw [names?_of_enter henter] at hnames
    have hwalk : start path >>= segments.foldlM tree.enter = .ok dir := by
      rw [hfirst]
      exact hdir
    rw [locate, hs, List.dropLast_concat, List.getLast?_concat, hwalk]
    exact hnames

theorem content?_put {names : List String} (h : names ≠ []) :
    (tree.put names (.file content)).content? =
      Function.update tree.content? names (some content) := by
  funext other
  rw [Function.update_apply, content?, content?]
  by_cases ho : other = names
  · subst ho
    simp [node?, put, h, Table.get?_insert]
  · rw [if_neg ho]
    by_cases hnil : other = []
    · simp [node?, hnil]
    · simp [node?, put, ho, hnil, Table.get?_insert]

theorem write_eq_ok (h : tree.write path content = .ok tree') :
    ∃ names, tree.locate path = some names ∧
      tree'.content? = Function.update tree.content? names (some content) := by
  obtain ⟨first, hfirst, h⟩ := bind_eq_ok h
  obtain ⟨spot, hspot, h⟩ := bind_eq_ok h
  have hwalk : start path >>= (Path.segments path).dropLast.foldlM tree.enter = .ok spot := by
    rw [hfirst]
    exact hspot
  split at h
  · cases h
  · cases h
  · cases h
  · rename_i name hdir hname
    split_ifs at h with hspecial hlong
    cases spot with
    | outside => cases h
    | inside names =>
      dsimp only at h
      split_ifs at h
      cases h
      obtain ⟨hdot, hdots, -⟩ : name ≠ "." ∧ name ≠ ".." ∧ Path.endsInSlash path ≠ true := by
        simpa using hspecial
      refine ⟨names ++ [name], ?_, content?_put (by simp)⟩
      rw [locate, hwalk, hname]
      dsimp only
      rw [Spot.child?, if_neg hdot, if_neg hdots]
      rfl

end FileTree

/-- A path leads to one file at most. Reading gives what this file holds or fails, and writing gives
it a new content as a whole or fails and changes nothing. -/
structure Files.Lawful {σ φ Path : Type} [DecidableEq φ] (files : Files (StateM σ) Path)
    (locate : σ → Path → Option φ) (content : σ → φ → Option Bytes) : Prop where
  read_cases : ∀ s path, (∃ cause, (files.read path).run s = (.error cause, s)) ∨
    ∃ f bytes, locate s path = some f ∧ content s f = some bytes ∧
      (files.read path).run s = (.ok bytes, s)
  write_cases : ∀ s path bytes, (∃ cause, (files.write path bytes).run s = (.error cause, s)) ∨
    ∃ f s', locate s path = some f ∧
      content s' = Function.update (content s) f (some bytes) ∧
      (files.write path bytes).run s = (.ok (), s')

theorem FileTree.lawful : FileTree.files.Lawful FileTree.locate FileTree.content? where
  read_cases tree path := by
    have hrun : (FileTree.files.read path).run tree =
        ((tree.read path).mapError FileError.message, tree) := rfl
    rw [hrun]
    cases h : tree.read path with
    | error e => exact Or.inl ⟨_, rfl⟩
    | ok bytes =>
      obtain ⟨names, hnames, hcontent⟩ := read_eq_ok h
      exact Or.inr ⟨names, bytes, hnames, hcontent, rfl⟩
  write_cases tree path bytes := by
    cases h : tree.write path bytes with
    | error e =>
      refine Or.inl ⟨e.message, ?_⟩
      simp only [files, StateT.run_bind, StateT.run_get, pure_bind, h]
      rfl
    | ok tree' =>
      obtain ⟨names, hnames, hcontent⟩ := write_eq_ok h
      refine Or.inr ⟨names, tree', hnames, hcontent, ?_⟩
      simp only [files, StateT.run_bind, StateT.run_get, pure_bind, h]
      rfl

theorem run_bind_of_run {σ α β : Type} {x : StateM σ α} {f : α → StateM σ β} {a : α} {s s' : σ}
    (h : x.run s = (a, s')) : (x >>= f).run s = (f a).run s' := by
  rw [StateT.run_bind, h]
  rfl

namespace Command

section

variable {σ Argument Path : Type} {console : Console Argument Path} {files : Files (StateM σ) Path}
  {s s' : σ} {path : Path} {cause : String} {source : Bytes} {m : Module}
  {written : Except String Unit} {options : Options Path} {events : List Event}
  {e : FrontError Path}

theorem load_of_unread (h : (files.read path).run s = (.error cause, s)) :
    (load files path).run s = (⟨[], .error (.io path cause)⟩, s) := by
  rw [load, run_bind_of_run h]
  rfl

theorem load_of_read (h : (files.read path).run s = (.ok source, s)) : ∃ events,
    (load files path).run s =
      (⟨events, (Module.parse (files.display path) source).value.mapError .parse⟩, s) := by
  rw [load, run_bind_of_run h]
  exact ⟨_, rfl⟩

theorem save_of_write
    (h : (files.write path m.listing.toUTF8.toList).run s = (written, s')) :
    (save files m path).run s = (written.mapError (.io path), s') := by
  rw [save, run_bind_of_run h]
  rfl

theorem perform_of_unloaded
    (h : (load files options.file).run s = (⟨events, .error e⟩, s)) :
    (perform files options).run s = (⟨events, .error e⟩, s) := by
  rw [perform, run_bind_of_run h]
  rfl

theorem perform_of_loaded (h : (load files options.file).run s = (⟨events, .ok m⟩, s))
    (hw : (files.write options.listing m.listing.toUTF8.toList).run s = (written, s')) :
    ∃ events', (perform files options).run s =
      (⟨events', written.mapError (.io options.listing)⟩, s') := by
  rw [perform, run_bind_of_run h]
  cases written with
  | error cause => exact ⟨_, run_bind_of_run (save_of_write hw)⟩
  | ok => exact ⟨_, run_bind_of_run (save_of_write hw)⟩

theorem run_of_perform {arguments : List Argument} (h : console.options arguments = .ok options)
    {r : Logged (Except (FrontError Path) Unit)} (hr : (perform files options).run s = (r, s')) :
    (run console files arguments).run s =
      (report console files.display options.threshold r, s') := by
  rw [run, h]
  exact run_bind_of_run hr

/-- The error is told last, behind the log, and nothing else is. -/
def Fails (display : Path → String) (r : Report) (e : FrontError Path) : Prop :=
  r.exitCode = 1 ∧ r.output = "" ∧
    ∃ log, r.errorOutput = log ++ ("error: " ++ e.describe display ++ "\n")

theorem report_fails (display : Path → String) (threshold : Threshold) (events : List Event)
    (e : FrontError Path) :
    Fails display (report console display threshold ⟨events, .error e⟩) e := by
  refine ⟨rfl, rfl, String.join ((threshold.records events).map console.line), ?_⟩
  simp only [report, String.append_assoc]

end

end Command

open Command in
/-- Nothing is stored unless the source is read, has a module and the listing can be written; then
one file is replaced by the listing, be it the source. The report says which of these happened. -/
theorem only_listing_is_stored {σ φ Argument Path : Type} [DecidableEq φ]
    {files : Files (StateM σ) Path} {locate : σ → Path → Option φ} {content : σ → φ → Option Bytes}
    (hf : files.Lawful locate content) {console : Console Argument Path}
    {arguments : List Argument} {options : Options Path}
    (ha : console.options arguments = .ok options) (s : σ) :
    let (report, s') := (run console files arguments).run s
    match ((files.read options.file).run s).1 with
    | .error cause => s' = s ∧ Fails files.display report (.io options.file cause)
    | .ok source =>
      (∃ f, locate s options.file = some f ∧ content s f = some source) ∧
      match (Module.parse (files.display options.file) source).value with
      | .error e => s' = s ∧ Fails files.display report (.parse e)
      | .ok m =>
        match ((files.write options.listing m.listing.toUTF8.toList).run s).1 with
        | .error cause => s' = s ∧ Fails files.display report (.io options.listing cause)
        | .ok () => report.exitCode = 0 ∧ report.output = "done.\n" ∧
          ∃ f, locate s options.listing = some f ∧
            content s' = Function.update (content s) f (some m.listing.toUTF8.toList) := by
  rcases hf.read_cases s options.file with ⟨cause, hread⟩ | ⟨f, source, hlocate, hsource, hread⟩
  · have hrun := run_of_perform ha (perform_of_unloaded (load_of_unread hread))
    simp only [hrun, hread]
    exact ⟨trivial, report_fails _ _ _ _⟩
  · obtain ⟨events, hload⟩ := load_of_read hread
    cases hparse : (Module.parse (files.display options.file) source).value with
    | error e =>
      rw [hparse] at hload
      have hrun := run_of_perform ha (perform_of_unloaded hload)
      simp only [hrun, hread, hparse]
      exact ⟨⟨f, hlocate, hsource⟩, trivial, report_fails _ _ _ _⟩
    | ok m =>
      rw [hparse] at hload
      rcases hf.write_cases s options.listing m.listing.toUTF8.toList with
        ⟨cause, hwrite⟩ | ⟨g, s', hg, hs', hwrite⟩
      · obtain ⟨events', hperform⟩ := perform_of_loaded hload hwrite
        have hrun := run_of_perform ha hperform
        simp only [hrun, hread, hparse, hwrite]
        exact ⟨⟨f, hlocate, hsource⟩, trivial, report_fails _ _ _ _⟩
      · obtain ⟨events', hperform⟩ := perform_of_loaded hload hwrite
        have hrun := run_of_perform ha hperform
        simp only [hrun, hread, hparse, hwrite]
        exact ⟨⟨f, hlocate, hsource⟩, rfl, rfl, g, hg, hs'⟩

/-- The path of the listing is another one for the source. -/
theorem listing_takes_place_of_source :
    let tree := (FileTree.empty.addDirectory "d").addFile "m" "var x: int;".toUTF8.toList
    let m : Module := ⟨"m", [⟨0, "x", .int, ⟨1, 5⟩⟩], [], [], .start⟩
    let (report, tree') :=
      (Command.run .standard FileTree.files ["plume", "m", "-dd/../m"]).run tree
    report.exitCode = 0 ∧ report.output = "done.\n" ∧
      tree'.content? = Function.update tree.content? ["m"] (some m.listing.toUTF8.toList) := by
  intro tree m
  have haccepted : Console.standard.options ["plume", "m", "-dd/../m"] =
      .ok ⟨"m", "d/../m", 0, 0⟩ := by decide +kernel
  have hread : ((FileTree.files.read "m").run tree).1 = .ok "var x: int;".toUTF8.toList := by
    decide +kernel
  have hparse : (Module.parse (FileTree.files.display "m")
      "var x: int;".toUTF8.toList).value = .ok m := by
    rw [Module.parse_value]
    decide +kernel
  have hwrite : ((FileTree.files.write "d/../m" m.listing.toUTF8.toList).run tree).1 = .ok () := by
    decide +kernel
  have hlocate : tree.locate "d/../m" = some ["m"] := by decide +kernel
  have hstored := only_listing_is_stored FileTree.lawful haccepted tree
  simp only [hread, hparse, hwrite, hlocate] at hstored
  obtain ⟨-, hexit, houtput, f, hf, hcontent⟩ := hstored
  obtain rfl := Option.some.inj hf
  exact ⟨hexit, houtput, hcontent⟩

end ProcLang
