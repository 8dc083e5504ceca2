import ControlGroups.Proofs.Container.Markers
import ControlGroups.Proofs.Inspector.Asking
import ControlGroups.Session

/-! The latches of a run. What has a detector of its own answers every question as the files stood
at the first one, whatever happens to the files and whoever else is asked in between. -/
namespace ControlGroups

/-- What may have a detector of its own. -/
inductive Holder where
  | detector (name : String)
  | inspector (name : String)
  deriving DecidableEq

/-- Whom a command asks whether the process runs in a container. -/
def Command.asked : Command → Option Holder
  | .environment name | .isContainer name => some (.detector name)
  | .inContainer name | .cpuQuota name => some (.inspector name)
  | _ => none

/-- Whom a command creates, in place of what had the name before. -/
def Command.created : Command → Option Holder
  | .newDetector name .. => some (.detector name)
  | .newInspector name _ => some (.inspector name)
  | _ => none

def ContainerSource.own? : ContainerSource → Option Detector
  | .own detector => some detector
  | _ => none

theorem Inspector.own?_latch (fs : FileSystem) (i : Inspector) :
    (i.latch fs).source.own? = i.source.own?.map (·.latch fs) := by
  obtain ⟨mounts, membership, unified, memory, source⟩ := i
  cases source <;> rfl

theorem Inspector.inContainer_of_own? {i : Inspector} {d : Detector} (h : i.source.own? = some d)
    (fs : FileSystem) (shared : Detector) : i.inContainer fs shared = d.isContainer fs := by
  obtain ⟨mounts, membership, unified, memory, source⟩ := i
  cases source with
  | own detector =>
    cases h
    rfl
  | _ => cases h

/-- The processor time of a process that runs in the given environment. -/
def Inspector.cpuQuotaIn (e : Environment) (m : Machine) (i : Inspector) : Except Error Allowance :=
  match e with
  | .host => .ok (.machine m.cpuCount)
  | .container =>
    (i.ask m.files (Unified.cpuQuota m.files) (Controllers.cpuQuota m.files)).map fun
      | .ok (some cores) => .share cores
      | _ => .machine m.cpuCount

theorem Inspector.cpuQuota_eq_cpuQuotaIn {e : Environment} {m : Machine} {shared : Detector}
    {i : Inspector} (h : i.inContainer m.files shared = decide (e = .container)) :
    i.cpuQuota m shared = i.cpuQuotaIn e m := by
  rw [cpuQuota, h]
  cases e with
  | host => rfl
  | container => rfl

namespace Session
variable {s : Session} {h : Holder} {c : Command} {d : Detector} {cs : List Command}

/-- The detector of a holder, if it has one of its own. -/
def own? (s : Session) : Holder → Option Detector
  | .detector name => some (s.detectors name)
  | .inspector name => (s.inspectors name).source.own?

/-- The answer to a question in the given environment. -/
def answerIn (s : Session) (e : Environment) : Command → Answer
  | .environment _ => .environment e
  | .isContainer _ | .inContainer _ => .container (e = .container)
  | .cpuQuota name => .processors ((s.inspectors name).cpuQuotaIn e s.machine)
  | c => s.answer c

/-- The files as they stand when a holder is asked for the first time. -/
def filesWhenAsked (h : Holder) : Session → List Command → Option FileSystem
  | _, [] => none
  | s, c :: cs => if c.asked = some h then some s.machine.files else filesWhenAsked h (s.next c) cs

theorem own?_withFiles (s : Session) (f : FileSystem → FileSystem) (h : Holder) :
    (s.withFiles f).own? h = s.own? h := by
  cases h <;> rfl

theorem own?_setDetector (s : Session) (name : String) (d : Detector) (h : Holder) :
    (s.setDetector name d).own? h = if h = .detector name then some d else s.own? h := by
  cases h with
  | detector n => by_cases hn : n = name <;> simp [own?, hn]
  | inspector n => simp [own?, setDetector]

theorem own?_setInspector (s : Session) (name : String) (i : Inspector) (h : Holder) :
    (s.setInspector name i).own? h = if h = .inspector name then i.source.own? else s.own? h := by
  cases h with
  | detector n => simp [own?, setInspector]
  | inspector n => by_cases hn : n = name <;> simp [own?, hn]

theorem own?_latchDetector (s : Session) (name : String) (h : Holder) :
    (s.latchDetector name).own? h =
      if h = .detector name then (s.own? h).map (·.latch s.machine.files) else s.own? h := by
  rw [latchDetector, own?_setDetector]
  split
  · rename_i hn
    rw [hn]
    rfl
  · rfl

theorem own?_latchInspector (s : Session) (name : String) (h : Holder) :
    (s.latchInspector name).own? h =
      if h = .inspector name then (s.own? h).map (·.latch s.machine.files) else s.own? h := by
  have hs : (s.latchInspector name).own? h =
      (s.setInspector name ((s.inspectors name).latch s.machine.files)).own? h := by
    cases h <;> rfl
  rw [hs, own?_setInspector]
  split
  · rename_i hn
    rw [hn, Inspector.own?_latch]
    rfl
  · rfl

/-- A command that neither asks a holder nor creates it leaves its latch alone. -/
theorem own?_next_of_not_asked (ha : c.asked ≠ some h) (hc : c.created ≠ some h) :
    (s.next c).own? h = s.own? h := by
  cases c with
  | put | putDirectory | remove => rw [next, own?_withFiles]
  | newDetector name =>
    rw [next, own?_setDetector, if_neg fun he => hc (congrArg some he.symm)]
  | newInspector name =>
    rw [next, own?_setInspector, if_neg fun he => hc (congrArg some he.symm)]
  | environment | isContainer =>
    rw [next, own?_latchDetector, if_neg fun he => ha (congrArg some he.symm)]
  | inContainer | cpuQuota =>
    rw [next, own?_latchInspector, if_neg fun he => ha (congrArg some he.symm)]
  | isUnified | controllers | memoryQuota | memoryUsage => rfl

theorem own?_next_of_asked (ha : c.asked = some h) :
    (s.next c).own? h = (s.own? h).map (·.latch s.machine.files) := by
  cases c with
  | environment | isContainer =>
    rw [next, own?_latchDetector, if_pos (Option.some.inj ha).symm]
  | inContainer | cpuQuota =>
    rw [next, own?_latchInspector, if_pos (Option.some.inj ha).symm]
  | _ => cases ha

/-- After a run a detector is latched as the files stood at the first question, if there was one. -/
theorem own?_after (hd : s.own? h = some d) (hc : ∀ c ∈ cs, c.created ≠ some h) :
    (s.after cs).own? h = some ((s.filesWhenAsked h cs).elim d (d.latch ·)) := by
  induction cs generalizing s d with
  | nil => exact hd
  | cons c cs ih =>
    have hcs : ∀ c ∈ cs, c.created ≠ some h := fun c hm => hc c (by simp [hm])
    rw [after_cons, filesWhenAsked]
    by_cases ha : c.asked = some h
    · have hn : (s.next c).own? h = some (d.latch s.machine.files) := by
        rw [own?_next_of_asked ha, hd, Option.map_some]
      rw [ih hn hcs, if_pos ha]
      -- a later question finds the answer of this one
      cases (s.next c).filesWhenAsked h cs <;> rfl
    · have hn : (s.next c).own? h = some d := by
        rw [own?_next_of_not_asked ha (hc c (by simp)), hd]
      rw [ih hn hcs, if_neg ha]

theorem filesWhenAsked_append (s : Session) (h : Holder) (cs more : List Command) :
    s.filesWhenAsked h (cs ++ more) =
      (s.filesWhenAsked h cs).or ((s.after cs).filesWhenAsked h more) := by
  induction cs generalizing s with
  | nil => rfl
  | cons c cs ih =>
    rw [List.cons_append, filesWhenAsked, filesWhenAsked, after_cons, ih]
    split <;> rfl

/-- A question to a holder is answered by its detector. -/
theorem answer_of_own? (hd : s.own? h = some d) (ha : c.asked = some h) :
    s.answer c = s.answerIn (d.environment s.machine.files) c := by
  cases c with
  | environment name | isContainer name =>
    cases ha
    cases hd
    rfl
  | inContainer name =>
    cases ha
    exact congrArg Answer.container (Inspector.inContainer_of_own? hd _ _)
  | cpuQuota name =>
    cases ha
    have hq := Inspector.inContainer_of_own? hd s.machine.files s.shared
    exact congrArg Answer.processors (Inspector.cpuQuota_eq_cpuQuotaIn hq)
  | _ => cases ha

/-- A question is answered as the files stood at the first question to the same holder. -/
theorem answer_after {marker membership : Path} (hd : s.own? h = some (.new marker membership))
    (hc : ∀ c ∈ cs, c.created ≠ some h) (ha : c.asked = some h) :
    ∃ files, s.filesWhenAsked h (cs ++ [c]) = some files ∧
      (s.after cs).answer c = (s.after cs).answerIn (.detect files marker membership) c := by
  have ho := own?_after hd hc
  rw [filesWhenAsked_append]
  cases hf : s.filesWhenAsked h cs with
  | none =>
    rw [hf] at ho
    refine ⟨(s.after cs).machine.files, by simp [filesWhenAsked, ha], ?_⟩
    exact answer_of_own? ho ha
  | some files =>
    rw [hf] at ho
    exact ⟨files, rfl, answer_of_own? ho ha⟩

section Told
variable {name : String} {inside : Bool}

theorem setInspector_self (s : Session) (name : String) :
    s.setInspector name (s.inspectors name) = s := by
  have hi : (s.setInspector name (s.inspectors name)).inspectors = s.inspectors := by
    funext n
    rw [inspectors_setInspector]
    split
    · rename_i hn
      rw [hn]
    · rfl
  exact congrArg (fun is => { s with inspectors := is }) hi

/-- Asking an inspector that was told where the process runs latches nothing. -/
theorem latchInspector_of_fixed (hs : (s.inspectors name).source = .fixed inside) :
    s.latchInspector name = s := by
  have hi : (s.inspectors name).latch s.machine.files = s.inspectors name := by
    rw [Inspector.latch, hs]
  have hl : (s.inspectors name).latchShared s.machine.files s.shared = s.shared := by
    rw [Inspector.latchShared, hs]
  rw [latchInspector, hi, hl, setInspector_self]

theorem next_of_fixed (hs : (s.inspectors name).source = .fixed inside)
    (ha : c.asked = some (.inspector name)) : s.next c = s := by
  cases c with
  | inContainer | cpuQuota =>
    cases ha
    exact latchInspector_of_fixed hs
  | _ => cases ha

theorem source_next_of_fixed (hs : (s.inspectors name).source = .fixed inside)
    (hc : c.created ≠ some (.inspector name)) :
    ((s.next c).inspectors name).source = .fixed inside := by
  by_cases ha : c.asked = some (.inspector name)
  · rw [next_of_fixed hs ha, hs]
  · cases c with
    | newInspector n settings =>
      have hn : name ≠ n := fun he => hc (by rw [he, Command.created])
      rw [next, inspectors_setInspector, if_neg hn, hs]
    | inContainer n | cpuQuota n =>
      have hn : name ≠ n := fun he => ha (by rw [he, Command.asked])
      rw [next, latchInspector, inspectors_setInspector, if_neg hn, hs]
    | _ => exact hs

theorem source_after_of_fixed (hs : (s.inspectors name).source = .fixed inside)
    (hc : ∀ c ∈ cs, c.created ≠ some (.inspector name)) :
    ((s.after cs).inspectors name).source = .fixed inside := by
  induction cs generalizing s with
  | nil => exact hs
  | cons c cs ih =>
    rw [after_cons]
    exact ih (source_next_of_fixed hs (hc c (by simp))) fun c hm => hc c (by simp [hm])

theorem answer_of_fixed (hs : (s.inspectors name).source = .fixed inside)
    (ha : c.asked = some (.inspector name)) :
    s.answer c = s.answerIn (if inside then .container else .host) c := by
  have hin : (s.inspectors name).inContainer s.machine.files s.shared =
      decide ((if inside then Environment.container else .host) = .container) := by
    rw [Inspector.inContainer, hs]
    cases inside <;> rfl
  cases c with
  | inContainer =>
    cases ha
    exact congrArg Answer.container hin
  | cpuQuota =>
    cases ha
    exact congrArg Answer.processors (Inspector.cpuQuota_eq_cpuQuotaIn hin)
  | _ => cases ha

end Told
end Session

namespace Session

/-- A new detector has not looked at any file. While it lives, every question to what it belongs to
is answered as the files stood at the first one, and no command but a question to that holder
touches it. An inspector that was told where the process runs answers so and latches nothing. -/
theorem latched_at_first_question :
    (∀ (s : Session) (name : String) (marker membership : Path),
      (s.next (.newDetector name marker membership)).own? (.detector name) =
        some (.new marker membership)) ∧
    (∀ (s : Session) (name : String) (settings : Settings), settings.container = none →
      settings.marker ≠ none ∨ settings.membership ≠ none →
      (s.next (.newInspector name settings)).own? (.inspector name) =
        some (.new (settings.marker.getD Container.markerPath)
          (settings.membership.getD Container.membershipPath))) ∧
    (∀ (s : Session) (h : Holder) (marker membership : Path),
      s.own? h = some (.new marker membership) →
      ∀ cs : List Command, (∀ c ∈ cs, c.created ≠ some h) → ∀ c : Command, c.asked = some h →
        ∃ files, s.filesWhenAsked h (cs ++ [c]) = some files ∧
          (s.after cs).answer c = (s.after cs).answerIn (.detect files marker membership) c) ∧
    (∀ (files : FileSystem) (marker membership : Path),
      Environment.detect files marker membership = .container ↔
        Container.hasMarkerFile files marker = .ok true ∨
          Container.hasGroupMarker files membership = .ok true) ∧
    (∀ (s : Session) (h : Holder) (c : Command), c.asked ≠ some h → c.created ≠ some h →
      (s.next c).own? h = s.own? h) ∧
    (∀ (s : Session) (name : String) (settings : Settings) (inside : Bool),
      settings.container = some inside →
      ∀ cs : List Command, (∀ c ∈ cs, c.created ≠ some (.inspector name)) →
      ∀ c : Command, c.asked = some (.inspector name) →
        ∀ s', (s.next (.newInspector name settings)).after cs = s' →
          s'.answer c = s'.answerIn (if inside then .container else .host) c ∧ s'.next c = s') := by
  refine ⟨?_, ?_, ?_, ?_, ?_, ?_⟩
  · intro s name marker membership
    rw [next, own?_setDetector, if_pos rfl]
  · intro s name settings hn hm
    rw [next, own?_setInspector, if_pos rfl, Inspector.ofSettings, Inspector.sourceOf_of_none hn hm,
      ContainerSource.own?]
  · intro s h marker membership hd cs hc c ha
    exact answer_after hd hc ha
  · intro files marker membership
    exact Environment.detect_eq_container_iff
  · intro s h c ha hc
    exact own?_next_of_not_asked ha hc
  · intro s name settings inside hs cs hc c ha s' he
    subst he
    have hf : ((s.next (.newInspector name settings)).inspectors name).source = .fixed inside := by
      rw [next, inspectors_setInspector, if_pos rfl]
      exact Inspector.sourceOf_of_some hs
    have hs' := source_after_of_fixed hf hc
    exact ⟨answer_of_fixed hs' ha, next_of_fixed hs' ha⟩

/-- An inspector with a membership file of its own on a machine without files. -/
def freshInspector : Session :=
  (Session.new ⟨.empty [], 1⟩).next
    (.newInspector "p" { Settings.none with membership := some ⟨"c"⟩ })

/-- A question about memory before there is a group, a question while the process is in a container
by its group, and the end of that group. -/
def passingGroup : List Command :=
  [.memoryQuota "p", .put ⟨"c"⟩ (Text.encode "1:cpu:/docker/x"), .inContainer "p", .remove ⟨"c"⟩]

theorem latched_at_first_question_passingGroup :
    (freshInspector.after passingGroup).answer (.inContainer "p") = .container true ∧
      Environment.detect (freshInspector.after passingGroup).machine.files Container.markerPath
        ⟨"c"⟩ = .host := by
  refine ⟨?_, by decide⟩
  obtain ⟨-, -, hfirst, -⟩ := latched_at_first_question
  obtain ⟨files, hf, ha⟩ := hfirst freshInspector (.inspector "p") Container.markerPath ⟨"c"⟩ rfl
    passingGroup (by decide) (.inContainer "p") rfl
  have hq : freshInspector.filesWhenAsked (.inspector "p") (passingGroup ++ [.inContainer "p"]) =
      some (freshInspector.after (passingGroup.take 2)).machine.files := rfl
  have hd : Environment.detect (freshInspector.after (passingGroup.take 2)).machine.files
      Container.markerPath ⟨"c"⟩ = .container := by decide
  rw [ha]
  cases hf.symm.trans hq
  rw [hd]
  rfl

end Session
end ControlGroups
