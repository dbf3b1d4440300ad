import RoughCut.Proofs.RunReports
import RoughCut.Proofs.SharedTrees

/-!
The order in which transcripts are given. Where the transcripts, their sidecars and the
directories that are made for these keep out of each other's way, each transcript comes to
the cut or to the failure that it would come to alone, so that a run ends with the same
status in any order. Sidecars that are made first can else be what a transcript is found
by, or what it is lost by.
-/

namespace RoughCut

namespace Sidecar

variable {reply : String → Probe.Reply} {start : FileTree} {directory : Option String}
  {transcripts : List String} {transcript : String} {p p' : Progress StorageError}
  {disk disk' : Disk} {cut : Cut}

/-- No two sidecars are one file, none is another transcript that is given, and the path
of no transcript leads up again from a directory that is missing on the way to a sidecar. -/
structure Separate (tree : FileTree) (directory : Option String) (transcripts : List String) :
    Prop where
  apart : Apart tree directory transcripts
  straight : ∀ path ∈ transcripts, ∀ other ∈ transcripts,
    (∃ t, Storage.load tree other = .ok t) →
      ¬ tree.Detours path (Storage.sidecarPath other directory)

/-- Whether transcripts are separate does not depend on their order. -/
theorem Separate.perm {tree : FileTree} {others : List String}
    (h : Separate tree directory transcripts) (hPerm : others.Perm transcripts) :
    Separate tree directory others where
  apart := by
    refine ⟨(hPerm.map _).nodup_iff.mpr h.apart.sidecars, fun first hFirst second hSecond => ?_⟩
    exact h.apart.transcripts first (hPerm.mem_iff.mp hFirst) second (hPerm.mem_iff.mp hSecond)
  straight path hPath other hOther :=
    h.straight path (hPerm.mem_iff.mp hPath) other (hPerm.mem_iff.mp hOther)

/-- A sidecar of a transcript that is there. -/
def IsSidecar (tree : FileTree) (directory : Option String) (transcripts : List String)
    (key : String) : Prop :=
  ∃ path ∈ transcripts, (∃ t, Storage.load tree path = .ok t) ∧
    key = Storage.sidecarPath path directory

/-- A path of a sidecar leads to one of the places to which a run may write. -/
theorem IsSidecar.mem_sidecarPlaces {key : String} (h : IsSidecar start directory transcripts key) :
    start.placeOf key ∈ sidecarPlaces start directory transcripts := by
  obtain ⟨path, hMem, -, rfl⟩ := h
  exact List.mem_map_of_mem hMem

/-- Sidecars of transcripts that can be loaded lie in one given directory, or each
beside a transcript that is there. So what may be missing on the way to one is on the
way to all. -/
theorem shareWays_isSidecar (hStands : start.Stands start.working) :
    start.ShareWays (IsSidecar start directory transcripts) := by
  rintro key other ⟨path, -, ⟨t, hLoad⟩, hKey⟩ ⟨path', -, ⟨t', hLoad'⟩, hOther⟩
  obtain ⟨text, hRead, -⟩ := Storage.of_load hLoad
  obtain ⟨text', hRead', -⟩ := Storage.of_load hLoad'
  exact Storage.shareWays_sidecars hStands directory key other ⟨path, text, hRead, hKey⟩
    ⟨path', text', hRead', hOther⟩

/-- A job comes to this cut if nothing else is done to the tree. -/
def Succeeds (reply : String → Probe.Reply) (tree : FileTree) (job : Job) (cut : Cut) : Prop :=
  ∃ t, Storage.load tree job.transcript = .ok t ∧ Storage.Storable tree job.output ∧
    cut = (job.measured (fun path => some (reply path)) t).cut

/-- The work on a job comes to a cut exactly if the transcript can be loaded and the
sidecar can be stored. What the probe says may change the cut, but not whether there is
one. -/
theorem process_eq_ok_iff (hStands : disk.tree.Stands disk.tree.working) (job : Job) :
    ((job.process (Disk.host reply)).run disk).1 = .ok cut ↔ Succeeds reply disk.tree job cut := by
  obtain ⟨tree, hWorked⟩ := Disk.exists_worked reply job disk
  generalize ((job.process (Disk.host reply)).run disk).1 = result at hWorked ⊢
  cases hWorked with
  | unloaded hLoad =>
      refine ⟨nofun, ?_⟩
      rintro ⟨t, hThere, -⟩
      rw [hLoad] at hThere
      cases hThere
  | refused hLoad hStore =>
      refine ⟨nofun, ?_⟩
      rintro ⟨-, -, hStorable, -⟩
      cases (Storage.eq_ok_iff_of_store hStands hStore).mpr hStorable
  | stored hLoad hStore =>
      constructor
      · rintro ⟨⟩
        exact ⟨_, hLoad, Storage.storable_of_store hStands hStore, rfl⟩
      · rintro ⟨t, hThere, -, rfl⟩
        rw [hLoad] at hThere
        cases hThere
        rfl

/-- How far the work on a job can have come where nothing that it asks for has changed
since the first tree. -/
def Steady (reply : String → Probe.Reply) (start : FileTree) (job : Job) :
    Progress StorageError → Prop
  | .waiting => True
  | .probing t path => Storage.load start job.transcript = .ok t ∧ job.footageFor t = some path
  | .storing cut => ∃ t, Storage.load start job.transcript = .ok t ∧
      cut = (job.measured (fun path => some (reply path)) t).cut
  | .finished result => ∀ cut, result = .ok cut ↔ Succeeds reply start job cut

/-- Loading a transcript of the run comes to what it comes to on the first tree.
Sidecars go to other places than transcripts, so a run does not change what it has yet
to read. -/
theorem load_iff (hWhole : start.IsWhole) (hSeparate : Separate start directory transcripts)
    (hStores : Storage.Stores (IsSidecar start directory transcripts) start disk.tree)
    {path : String} (hMem : path ∈ transcripts) {t : Transcript} :
    Storage.load disk.tree path = .ok t ↔ Storage.load start path = .ok t := by
  have hStands := hWhole.stands_working
  have hPlaces (key : String) (hKey : IsSidecar start directory transcripts key) :
      start.placeOf key ∈ sidecarPlaces start directory transcripts := hKey.mem_sidecarPlaces
  refine hStores.load_iff hWhole hPlaces ?_ fun text hRead => ?_
  · rintro _ ⟨other, hOther, hThere, rfl⟩
    exact hSeparate.straight path hMem other hOther hThere
  · rcases hRead with hBefore | hNow
    · exact hSeparate.apart.not_mem hStands (.refl start) hMem hBefore
    · exact hSeparate.apart.not_mem hStands (hStores.grows hPlaces) hMem hNow

/-- A request of a job is answered as on the first tree, whatever the other jobs have
stored by then. This is the step from which all schedules come to the same results. -/
theorem steady_step {job : Job} (hWhole : start.IsWhole)
    (hSeparate : Separate start directory transcripts) (hMem : job.transcript ∈ transcripts)
    (hOutput : job.output = Storage.sidecarPath job.transcript directory)
    (hStores : Storage.Stores (IsSidecar start directory transcripts) start disk.tree)
    (h : Steady reply start job p)
    (hStep : (job.step (Disk.host reply) p).run disk = (p', disk')) :
    Steady reply start job p' ∧
      Storage.Stores (IsSidecar start directory transcripts) start disk'.tree := by
  have hStands := hWhole.stands_working
  have hWays : start.ShareWays (IsSidecar start directory transcripts) :=
    shareWays_isSidecar hStands
  cases Disk.answers_of_step hStep with
  | load =>
      have hLoads {t : Transcript} : Storage.load disk.tree job.transcript = .ok t ↔
          Storage.load start job.transcript = .ok t :=
        load_iff hWhole hSeparate hStores hMem
      refine ⟨?_, hStores⟩
      cases hLoad : Storage.load disk.tree job.transcript with
      | error e =>
          refine fun cut => ⟨nofun, ?_⟩
          rintro ⟨t, hThere, -⟩
          rw [← hLoads, hLoad] at hThere
          cases hThere
      | ok t =>
          have hThere := hLoads.mp hLoad
          rw [Job.afterLoad]
          cases hFootage : job.footageFor t with
          | some path => exact ⟨hThere, hFootage⟩
          | none => exact ⟨t, hThere, by rw [Job.measured, hFootage]⟩
  | probe t path =>
      obtain ⟨hLoad, hFootage⟩ := h
      exact ⟨⟨t, hLoad, by rw [Job.measured, hFootage]⟩, hStores⟩
  | @store cut result tree hStore =>
      obtain ⟨t, hLoad, rfl⟩ := h
      have hKey : IsSidecar start directory transcripts job.output :=
        ⟨job.transcript, hMem, ⟨t, hLoad⟩, hOutput⟩
      have hTaken : result = .ok () ↔ Storage.Storable start job.output :=
        (Storage.eq_ok_iff_of_store (hStores.stands_working hStands) hStore).trans
          (hStores.storable_iff hWays hKey)
      refine ⟨?_, hStores.store hStands hWays hKey hStore⟩
      cases result with
      | error e =>
          refine fun cut => ⟨nofun, ?_⟩
          rintro ⟨-, -, hThere, -⟩
          cases hTaken.mpr hThere
      | ok _ =>
          refine fun cut => ⟨?_, ?_⟩
          · rintro ⟨⟩
            exact ⟨t, hLoad, hTaken.mp rfl, rfl⟩
          · rintro ⟨u, hOther, -, rfl⟩
            rw [hLoad] at hOther
            cases hOther
            rfl
  | rest result => exact ⟨h, hStores⟩

variable {width : Nat} {trace : List Request}

/-- Where a run ends, each transcript has come to what it comes to alone. Neither the
other transcripts nor their order have a part in its result. -/
theorem forall₂_alone {settings : Settings} {tasks : List (Task StorageError)}
    (hWhole : disk.tree.IsWhole) (hSeparate : Separate disk.tree settings.directory transcripts)
    (hRun : Batch.Run (Disk.host reply) width
      (disk, (transcripts.map (settled disk.tree settings.directory)).map Task.new) trace
      (disk', tasks))
    (hFinished : ∀ task ∈ tasks, task.progress.isFinished = true) :
    List.Forall₂ (fun transcript account => ∀ cut, account.result = .ok cut ↔
      Succeeds reply disk.tree (settled disk.tree settings.directory transcript) cut)
      transcripts (accounts tasks) := by
  refine forall₂_accounts hFinished hRun.jobs_new fun transcript _ result hTask => ?_
  have hKept := hRun.keeps (I := fun disk' => Storage.Stores
      (IsSidecar disk.tree settings.directory transcripts) disk.tree disk'.tree)
    (P := Steady reply disk.tree)
    (fun job hJob p p' now now' hStores hSteady hStep => by
      rw [Batch.map_job_new] at hJob
      obtain ⟨path, hMem, rfl⟩ := List.mem_map.mp hJob
      exact steady_step hWhole hSeparate hMem rfl hStores hSteady hStep)
    (.refl _) (List.forall_mem_map.mpr fun _ _ => trivial)
  exact hKept.2 _ hTask

/-! The status in any order. -/

/-- The status of a run depends on no more than whether something has failed and whether
a cut has errors. -/
theorem SumsUp.status_eq {strict : Bool} {as bs : List Account} {status other : Nat}
    (h : SumsUp strict as status) (hOther : SumsUp strict bs other)
    (hFailed : (∃ account ∈ bs, account.Failed) ↔ ∃ account ∈ as, account.Failed)
    (hErrors : (∃ account ∈ bs, account.HasErrors) ↔ ∃ account ∈ as, account.HasErrors) :
    other = status := by
  by_cases hOne : ∃ account ∈ as, account.Failed
  · rw [h.one.mpr hOne, hOther.one.mpr (hFailed.mpr hOne)]
  · have hNone := mt hFailed.mp hOne
    by_cases hTwo : strict = true ∧ ∃ account ∈ as, account.HasErrors
    · rw [h.two.mpr ⟨hOne, hTwo⟩, hOther.two.mpr ⟨hNone, hTwo.1, hErrors.mpr hTwo.2⟩]
    · rw [h.zero.mpr ⟨hOne, hTwo⟩, hOther.zero.mpr ⟨hNone, fun h => hTwo ⟨h.1, hErrors.mp h.2⟩⟩]

/-- Something of a kind is in one list exactly if something of that kind is in another,
where the two are of a kind one by one. -/
theorem exists_mem_iff_of_forall₂ {α β : Type} {R : α → β → Prop} {P : α → Prop} {Q : β → Prop}
    {as : List α} {bs : List β} (h : List.Forall₂ R as bs) (hIff : ∀ a b, R a b → (Q b ↔ P a)) :
    (∃ b ∈ bs, Q b) ↔ ∃ a ∈ as, P a := by
  induction h with
  | nil => simp
  | cons hFirst _ ih => simp [hIff _ _ hFirst, ih]

/-- The transcript is there and its cut can be stored. -/
def CanCut (tree : FileTree) (directory : Option String) (transcript : String)
    (t : Transcript) : Prop :=
  Storage.load tree transcript = .ok t ∧
    Storage.Storable tree (Storage.sidecarPath transcript directory)

section Verdicts

variable {tree : FileTree} {accounts : List Account}
  (h : List.Forall₂ (fun transcript account => ∀ cut, account.result = .ok cut ↔
    Succeeds reply tree (settled tree directory transcript) cut) transcripts accounts)

include h

/-- Something fails in a run exactly if one of its transcripts cannot be cut on the
first tree. -/
theorem exists_failed_iff : (∃ account ∈ accounts, account.Failed) ↔
    ∃ transcript ∈ transcripts, ¬ ∃ t, CanCut tree directory transcript t := by
  refine exists_mem_iff_of_forall₂ h fun transcript account hAccount => ?_
  constructor
  · rintro ⟨e, hFailed⟩ ⟨t, hLoad, hStorable⟩
    rw [(hAccount _).mpr ⟨t, hLoad, hStorable, rfl⟩] at hFailed
    cases hFailed
  · intro hNone
    cases hResult : account.result with
    | error e => exact ⟨e, hResult⟩
    | ok cut =>
        obtain ⟨t, hLoad, hStorable, -⟩ := (hAccount cut).mp hResult
        exact absurd ⟨t, hLoad, hStorable⟩ hNone

/-- A cut of a run has errors exactly if one of its transcripts has a cut with errors on
the first tree. -/
theorem exists_hasErrors_iff : (∃ account ∈ accounts, account.HasErrors) ↔
    ∃ transcript ∈ transcripts, ∃ t, CanCut tree directory transcript t ∧
      t.cut.report.errors ≠ [] := by
  refine exists_mem_iff_of_forall₂ h fun transcript account hAccount => ?_
  constructor
  · rintro ⟨cut, hResult, hErrors⟩
    obtain ⟨t, hLoad, hStorable, rfl⟩ := (hAccount cut).mp hResult
    rw [Job.report_measured] at hErrors
    exact ⟨t, ⟨hLoad, hStorable⟩, hErrors⟩
  · rintro ⟨t, ⟨hLoad, hStorable⟩, hErrors⟩
    refine ⟨_, (hAccount _).mpr ⟨t, hLoad, hStorable, rfl⟩, ?_⟩
    rwa [Job.report_measured]

end Verdicts

variable {settings settings' : Settings} {reply' : String → Probe.Reply} {others : List String}
  {disk'' : Disk} {o o' : Outcome}

/-- In any order a run over the same transcripts ends with the same status, however many
are worked on at once and whatever their footage is replied to be. -/
theorem status_of_orders (hWhole : disk.tree.IsWhole)
    (hSeparate : Separate disk.tree settings.directory transcripts) (hSome : transcripts ≠ [])
    (hEnd : CanEnd reply settings transcripts disk disk' o)
    (hPerm : others.Perm transcripts) (hStrict : settings'.strict = settings.strict)
    (hDirectory : settings'.directory = settings.directory)
    (hOther : CanEnd reply' settings' others disk disk'' o') : o'.status = o.status := by
  have hSome' : others ≠ [] := fun hNone => hSome (List.nil_perm.mp (hNone ▸ hPerm))
  obtain ⟨trace, tasks, hRun, -, hFinished, rfl⟩ := hEnd.exists_tasks hSome
  obtain ⟨trace', tasks', hRun', -, hFinished', rfl⟩ := hOther.exists_tasks hSome'
  have hSeparate' : Separate disk.tree settings'.directory others :=
    hDirectory ▸ hSeparate.perm hPerm
  have hAlone := forall₂_alone hWhole hSeparate hRun hFinished
  have hAlone' := forall₂_alone hWhole hSeparate' hRun' hFinished'
  have hSums := (accounted_of_run hRun hFinished).status
  have hSums' := (accounted_of_run hRun' hFinished').status
  rw [hStrict] at hSums' ⊢
  refine hSums.status_eq hSums' ?_ ?_
  · rw [exists_failed_iff hAlone, exists_failed_iff hAlone', hDirectory]
    simp only [hPerm.mem_iff]
  · rw [exists_hasErrors_iff hAlone, exists_hasErrors_iff hAlone', hDirectory]
    simp only [hPerm.mem_iff]

/-- A run over some transcripts comes to an end, and wherever it does there is an account
of each transcript, in order: of what its own loading and storing came to, whatever came
of the others. These accounts are all that the run says, and the status sums them up. A
probe changes nothing in what is reported. Where the transcripts are kept apart from the
sidecars, each comes to the cut that it comes to alone, or like that to a failure, and the
status is the same in any order. -/
theorem run_accounted (reply : String → Probe.Reply) (settings : Settings)
    {transcripts : List String} (hSome : transcripts ≠ []) (disk : Disk) :
    (∃ disk' o, CanEnd reply settings transcripts disk disk' o) ∧
    (∀ (job : Job) reply t, (job.measured reply t).cut.report = t.cut.report) ∧
    ∀ disk' o, CanEnd reply settings transcripts disk disk' o →
      (∃ trace tasks accounts,
        let width := Nat.max 1 settings.maxConcurrent
        let first := (disk, (transcripts.map (settled disk.tree settings.directory)).map Task.new)
        Batch.Run (Disk.host reply) width first trace (disk', tasks) ∧
        Accounted (Disk.host reply)
          (Batch.Passes (Disk.host reply) width first trace (disk', tasks)) settings disk.tree
          transcripts accounts o ∧
        (disk.tree.IsWhole → Separate disk.tree settings.directory transcripts →
          List.Forall₂ (fun transcript account => ∀ cut, account.result = .ok cut ↔
            (((settled disk.tree settings.directory transcript).process
              (Disk.host reply)).run disk).1 = .ok cut) transcripts accounts)) ∧
      (disk.tree.IsWhole → Separate disk.tree settings.directory transcripts →
        ∀ reply' settings' others disk'' o', others.Perm transcripts →
          settings'.strict = settings.strict → settings'.directory = settings.directory →
          CanEnd reply' settings' others disk disk'' o' → o'.status = o.status) := by
  refine ⟨⟨_, _, canEnd_runOn reply settings transcripts disk⟩, Job.report_measured,
    fun disk' o hEnd => ⟨?_, ?_⟩⟩
  · obtain ⟨trace, tasks, hRun, -, hFinished, rfl⟩ := hEnd.exists_tasks hSome
    refine ⟨trace, tasks, accounts tasks, hRun, accounted_of_run hRun hFinished, ?_⟩
    intro hWhole hSeparate
    refine (forall₂_alone hWhole hSeparate hRun hFinished).imp fun transcript account h cut => ?_
    rw [h cut, process_eq_ok_iff hWhole.stands_working]
  · intro hWhole hSeparate reply' settings' others disk'' o' hPerm hStrict hDirectory hOther
    exact status_of_orders hWhole hSeparate hSome hEnd hPerm hStrict hDirectory hOther

/-- Of three transcripts in a strict run one is not there, one has an error and one is
cut well, and the directory for cuts has to be made. -/
theorem run_accounted_mixed :
    let text (tokens : String) : Entry :=
      .file (Text.Utf8.encode ("\x7b\"tokens\":[" ++ tokens ++ "]\x7d"))
    let tree : FileTree :=
      ⟨[(["takes"], .directory), (["a.json"], text "[\"slate\",0]"), (["b.json"], text "")], []⟩
    let settings : Settings := { directory := some "cuts", maxConcurrent := 2, strict := true }
    let reply (_ : String) : Probe.Reply := .notRun ""
    let transcripts := ["none.json", "takes/../a.json", "b.json"]
    tree.IsWhole ∧ Separate tree settings.directory transcripts ∧
      ∃ disk' o disk'' o' seen accounts,
        CanEnd reply settings transcripts ⟨tree, []⟩ disk' o ∧
        CanEnd reply { settings with maxConcurrent := 1 } transcripts.reverse ⟨tree, []⟩ disk'' o' ∧
        Accounted (Disk.host reply) seen settings tree transcripts accounts o ∧
        accounts.length = 3 ∧ o.status = 1 ∧ o'.status = 1 := by
  intro text tree settings reply transcripts
  have hWhole : tree.IsWhole := FileTree.isWhole_of_entries (by decide +kernel) (by decide)
  have hApart : Apart tree settings.directory transcripts := ⟨by decide +kernel, by decide +kernel⟩
  have hStraight : ∀ path ∈ transcripts, ∀ other ∈ transcripts,
      (∃ t, Storage.load tree other = .ok t) →
        ¬ tree.Detours path (Storage.sidecarPath other settings.directory) := by
    intro path hPath other _ _
    refine FileTree.not_detours_of_there ?_
    revert path
    decide +kernel
  have hSeparate : Separate tree settings.directory transcripts := ⟨hApart, hStraight⟩
  have hEnd := canEnd_runOn reply settings transcripts ⟨tree, []⟩
  have hOther := canEnd_runOn reply { settings with maxConcurrent := 1 } transcripts.reverse
    ⟨tree, []⟩
  have hStatus : ((runOn reply settings transcripts).run ⟨tree, []⟩).1.status = 1 := by
    decide +kernel
  obtain ⟨-, -, hRuns⟩ := run_accounted reply settings (by decide : transcripts ≠ []) ⟨tree, []⟩
  obtain ⟨⟨trace, tasks, accounts, -, hAccounted, -⟩, hOrders⟩ := hRuns _ _ hEnd
  have hSame := hOrders hWhole hSeparate reply { settings with maxConcurrent := 1 } _ _ _
    (List.reverse_perm transcripts) rfl rfl hOther
  exact ⟨hWhole, hSeparate, _, _, _, _, _, accounts, hEnd, hOther, hAccounted,
    hAccounted.each.length_eq.symm, hStatus, hSame.trans hStatus⟩

/-- The status of a run over such transcripts is the same in any order. -/
def AnyOrder (distinct : FileTree → Option String → List String → Prop) : Prop :=
  ∀ (reply : String → Probe.Reply) (settings : Settings) (transcripts others : List String)
    (disk disk' disk'' : Disk) (o o' : Outcome), disk.tree.IsWhole → transcripts ≠ [] →
    distinct disk.tree settings.directory transcripts → others.Perm transcripts →
    CanEnd reply settings transcripts disk disk' o →
    CanEnd reply settings others disk disk'' o' → o'.status = o.status

/-- The status can depend on the order although the transcripts and the sidecars are all
different files, or although they all have different paths and none leads up: by the
directory that is made for a sidecar another transcript is found, and a sidecar is written
over a transcript that is named in another way. -/
theorem status_of_orders_differs :
    (¬ AnyOrder fun tree directory transcripts =>
      (transcripts.map tree.placeOf ++ sidecarPlaces tree directory transcripts).Nodup) ∧
    ¬ AnyOrder fun _ directory transcripts =>
      (transcripts ++ transcripts.map fun path => Storage.sidecarPath path directory).Nodup ∧
        ∀ path ∈ transcripts, ".." ∉ FileTree.pathNames path := by
  let text (tokens : String) : Entry :=
    .file (Text.Utf8.encode ("\x7b\"tokens\":[" ++ tokens ++ "]\x7d"))
  let reply (_ : String) : Probe.Reply := .notRun ""
  constructor
  · intro hSame
    let tree : FileTree := ⟨[(["a.json"], text ""), (["b.json"], text "")], []⟩
    let settings : Settings := { directory := some "cuts", maxConcurrent := 1 }
    have hWhole : tree.IsWhole := FileTree.isWhole_of_entries (by decide +kernel) (by decide)
    have hStatus := hSame reply settings ["b.json", "cuts/../a.json"] ["cuts/../a.json", "b.json"]
      ⟨tree, []⟩ _ _ _ _ hWhole (by decide) (by decide +kernel) (by decide)
      (canEnd_runOn _ _ _ _) (canEnd_runOn _ _ _ _)
    revert hStatus
    decide +kernel
  · intro hSame
    let tree : FileTree :=
      ⟨[(["a.json"], text ""), (["a.segments.json"], text "[\"slate\",0]")], []⟩
    let settings : Settings := { maxConcurrent := 1, strict := true }
    have hWhole : tree.IsWhole := FileTree.isWhole_of_entries (by decide +kernel) (by decide)
    have hStatus := hSame reply settings ["a.json", "./a.segments.json"]
      ["./a.segments.json", "a.json"] ⟨tree, []⟩ _ _ _ _ hWhole (by decide)
      ⟨by decide +kernel, by decide +kernel⟩ (by decide)
      (canEnd_runOn _ _ _ _) (canEnd_runOn _ _ _ _)
    revert hStatus
    decide +kernel

end Sidecar

end RoughCut
