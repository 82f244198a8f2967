import ClassDiagram.Proofs.Writer.Beside

/-! A name in a folder. Where the way to the folder is free, what is there under the name is what the
tree holds there; so two paths to one folder lead to the same. -/

namespace ClassDiagram

theorem Path.text_joinName (p : Path) : ∃ front, ∀ name : String, '/' ∉ name.toList →
    (p.joinName name).text = front ++ name := by
  have relative : ∀ name : String, '/' ∉ name.toList → (Path.mk name).isAbsolute = false :=
    fun name noSlash => isAbsolute_of_notMem noSlash
  by_cases empty : p.text = ""
  · exact ⟨"", fun name noSlash => by simp [joinName, join, empty]⟩
  · by_cases closed : p.text.endsWith "/" = true
    · exact ⟨p.text, fun name noSlash => by simp [joinName, join, relative name noSlash, empty, closed]⟩
    · exact ⟨p.text ++ "/", fun name noSlash => by
        simp [joinName, join, relative name noSlash, empty, closed]⟩

namespace Files.Workspace

section

variable {t : Tree} {loc l : Location} {front : List String} {last : String} {spot : Spot} {e : Entry}

theorem Leads.append (first : Leads t loc front (.present l .folder))
    {more : List String} (second : Leads t l more spot) : Leads t loc (front ++ more) spot := by
  generalize ends : Spot.present l .folder = middle at first
  induction first with
  | stop => cases ends; exact second
  | idle idle _ ih => exact .idle idle (ih ends)
  | up _ ih => exact .up (ih ends)
  | down named found _ ih => exact .down named found (ih ends)
  | file => cases ends
  | free => cases ends

theorem leads_name_iff (named : Named last) :
    Leads t loc [last] (.present l e) ↔ l = loc ++ [last] ∧ t.find? l = some e := by
  constructor
  · intro leads
    cases leads with
    | idle idle => simp [named.notIdle] at idle
    | up => exact absurd rfl named.notUp
    | down _ found leads => cases leads; exact ⟨rfl, found⟩
    | file _ found => exact ⟨rfl, found⟩
  · rintro ⟨rfl, found⟩
    cases e with
    | folder => exact .down named found (.stop _)
    | file bytes => exact .file named found

end

variable {w : Workspace} {t : Tree} {p q : Path} {name other : String} {l : Location} {e : Entry}

theorem Reached.leads (reached : w.Reached p) :
    Leads w.tree (w.start p) p.steps (.present (w.location p) .folder) := by
  obtain ⟨l, leads⟩ := reached
  have loc : l = w.location p := by
    rw [location_eq]
    exact leads.loc_eq
  rwa [loc] at leads

theorem resolve_step_iff (absolute : q.isAbsolute = p.isAbsolute)
    (steps : q.steps = p.steps ++ [name]) (ends : ∃ before, q.segments = before ++ [name])
    (named : Named name) :
    w.resolve q = .ok (.present l e) ↔
      Askable q ∧ w.Reached p ∧ l = w.location p ++ [name] ∧ w.tree.find? l = some e := by
  have start : w.start q = w.start p := by rw [Workspace.start, Workspace.start, absolute]
  rw [resolve_ok_iff]
  refine and_congr_right fun _ => ⟨?_, ?_⟩
  · intro leads
    have leads := leads.steps
    rw [← Path.steps_eq_filter, steps, start] at leads
    obtain ⟨l', front, last⟩ := leads.split
    have reached : w.Reached p := ⟨l', front⟩
    have loc : l' = w.location p := by
      rw [location_eq]
      exact front.loc_eq
    rw [loc] at last
    exact ⟨reached, (leads_name_iff named).mp last⟩
  · rintro ⟨reached, there⟩
    obtain ⟨before, segments⟩ := ends
    have front : before.filter Path.isStep = p.steps := by
      have whole := q.steps_eq_filter
      rw [steps, segments, List.filter_append] at whole
      have single : [name].filter Path.isStep = [name] := by
        simp [Path.isStep, named.notIdle]
      rw [single] at whole
      exact (List.append_cancel_right whole).symm
    have leads := reached.leads
    rw [← front] at leads
    rw [segments, start]
    exact leads.of_steps.append ((leads_name_iff named).mpr there)

theorem resolve_joinName_iff (proper : ProperName name) (named : Named name) :
    w.resolve (p.joinName name) = .ok (.present l e) ↔
      Askable (p.joinName name) ∧ w.Reached p ∧ l = w.location p ++ [name] ∧
        w.tree.find? l = some e := by
  obtain ⟨absolute, steps⟩ := steps_of_proper p proper
  exact resolve_step_iff absolute steps (p.segments_joinName proper.noSlash) named

theorem location_of_proper (p : Path) (proper : ProperName name) :
    w.location (p.joinName name) = w.location p ++ [name] := by
  rw [location_joinName _ _ proper.noSlash, enter, if_neg (by simp [proper.notIdle]),
    if_neg proper.notUp]

theorem isFile_of_read {bytes : Bytes} (read : w.read p = .ok bytes) : w.isFile p = true :=
  isFile_iff.mpr ⟨_, _, read_eq_ok_iff.mp read, rfl⟩

theorem read_of_isFile (file : w.isFile p = true) : ∃ bytes, w.read p = .ok bytes := by
  obtain ⟨l, e, ends, kind⟩ := isFile_iff.mp file
  cases e with
  | folder => cases kind
  | file bytes => exact ⟨bytes, read_of_resolve ends⟩

theorem isFile_joinName_iff (proper : ProperName name) (named : Named name) :
    w.isFile (p.joinName name) = true ↔ Askable (p.joinName name) ∧ w.Reached p ∧
      ∃ bytes, w.tree.find? (w.location p ++ [name]) = some (.file bytes) := by
  rw [isFile_iff]
  constructor
  · rintro ⟨l, e, ends, kind⟩
    obtain ⟨askable, reached, rfl, found⟩ := (resolve_joinName_iff proper named).mp ends
    cases e with
    | folder => cases kind
    | file bytes => exact ⟨askable, reached, bytes, found⟩
  · rintro ⟨askable, reached, bytes, found⟩
    exact ⟨_, _, (resolve_joinName_iff proper named).mpr ⟨askable, reached, rfl, found⟩, rfl⟩

theorem holds_joinName_iff (proper : ProperName name) (named : Named name) :
    w.holds (p.joinName name) = true ↔ Askable (p.joinName name) ∧ w.Reached p ∧
      ∃ e, w.tree.find? (w.location p ++ [name]) = some e := by
  rw [holds_iff]
  constructor
  · rintro ⟨l, e, ends⟩
    obtain ⟨askable, reached, rfl, found⟩ := (resolve_joinName_iff proper named).mp ends
    exact ⟨askable, reached, e, found⟩
  · rintro ⟨askable, reached, e, found⟩
    exact ⟨_, _, (resolve_joinName_iff proper named).mpr ⟨askable, reached, rfl, found⟩⟩

theorem askable_joinName (proper : ProperName name) (proper' : ProperName other)
    (shorter : other.utf8ByteSize ≤ name.utf8ByteSize) (noNul : '\x00' ∉ other.toList)
    (askable : Askable (p.joinName name)) : Askable (p.joinName other) := by
  obtain ⟨front, text⟩ := p.text_joinName
  have whole := text name proper.noSlash
  have whole' := text other proper'.noSlash
  have some : other ≠ "" := by
    rintro rfl
    exact absurd proper'.notIdle (by decide)
  constructor
  · have clean := askable.noNul
    simp only [hasNul, whole, whole', String.toList_append, List.contains_append,
      Bool.or_eq_false_iff] at clean ⊢
    exact ⟨clean.1, by simpa using noNul⟩
  · rw [whole']
    intro none
    exact some ((String.append_eq_empty_iff.mp none).2)
  · have fits := askable.fits
    rw [whole, String.utf8ByteSize_append] at fits
    rw [whole', String.utf8ByteSize_append]
    omega

theorem Reached.onTree (keeps : w.tree.KeepsFolders t) (reached : w.Reached p) :
    (w.onTree t).Reached p := by
  obtain ⟨l, leads⟩ := reached
  exact ⟨l, leads.of_keepsFolders keeps trivial⟩

theorem holds_of_location (proper : ProperName name) (named : Named name)
    (askable : Askable (p.joinName name)) (reached : w.Reached p)
    (same : w.location p = w.location q) (there : w.holds (q.joinName name) = true) :
    w.holds (p.joinName name) = true := by
  obtain ⟨_, _, e, found⟩ := (holds_joinName_iff proper named).mp there
  exact (holds_joinName_iff proper named).mpr ⟨askable, reached, e, same ▸ found⟩

end Files.Workspace

end ClassDiagram
