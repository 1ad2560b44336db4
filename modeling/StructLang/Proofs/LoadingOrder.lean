import StructLang.Proofs.Splicing

/-!
# Loading splices imports in order

On a file system that does not change, loading computes the one walk that skips files where they are met
again. Each nested file is a new one, so the nesting is never deeper than there are files
(`Loading.computes_file`); imports may run in circles.
-/

namespace StructLang

variable {σ F : Type}

namespace Loading

/-- A step of loading leads from one state to another, with this result, and leaves the host alone. -/
def Runs {α : Type} (s : σ) (x : Load (StateM σ) α) (l : Loading) (a : α) (l' : Loading) : Prop :=
  x l s = ((a, l'), s)

namespace Runs

variable {α β : Type} {s : σ}

theorem pure (a : α) : Runs s (pure a : Load (StateM σ) α) l a l := rfl

theorem bind {k : α → Load (StateM σ) β} (h : Runs s x l a l1) (hk : Runs s (k a) l1 b l2) :
    Runs s (x >>= k) l b l2 := by
  unfold Runs at *
  change (fun q : (α × Loading) × σ => k q.1.1 q.1.2 q.2) (x l s) = _
  rw [h]
  exact hk

theorem lift (h : y s = (a, s)) : Runs s (StateT.lift y : Load (StateM σ) α) l a l := by
  unfold Runs
  change (fun q : α × σ => ((q.1, l), q.2)) (y s) = _
  rw [h]

theorem get : Runs s (get : Load (StateM σ) Loading) l l l := rfl

theorem set (l' : Loading) : Runs s (set l' : Load (StateM σ) PUnit) l ⟨⟩ l' := rfl

theorem modify (f : Loading → Loading) : Runs s (modify f : Load (StateM σ) PUnit) l ⟨⟩ (f l) := rfl

end Runs

/-! ## What a state knows -/

def counters (l : Loading) : Counters := ⟨l.sources.files.length, l.nextId⟩

def Knows (l : Loading) (disk : Disk F) (known : List F) : Prop :=
  ∀ path f, disk.file? path = some f → (disk.identity path ∈ l.loaded ↔ f ∈ known)

theorem Knows.add {disk : Disk F} {l l' : Loading} {known : List F} {path : String} {f : F}
    (hfaithful : disk.Faithful) (hfile : disk.file? path = some f) (h : l.Knows disk known)
    (hloaded : l'.loaded = l.loaded ++ [disk.identity path]) : l'.Knows disk (known ++ [f]) := by
  intro q g hg
  rw [hloaded, List.mem_append, List.mem_append, h q g hg, List.mem_singleton, List.mem_singleton,
    hfaithful q path g f hg hfile]

variable {known : List F}

theorem Knows.of_loaded {l l' : Loading} (h : l.Knows disk known) (hloaded : l'.loaded = l.loaded) :
    l'.Knows disk known := by
  intro path f hf
  rw [hloaded]
  exact h path f hf

def Fresh (disk : Disk F) (known : List F) (k : Nat) : Prop :=
  ∃ fresh : List F, fresh.length ≤ k ∧
    ∀ path f, disk.file? path = some f → f ∈ known ∨ f ∈ fresh

theorem Fresh.take {disk : Disk F} {path : String} {f : F} (h : Fresh disk known k)
    (hfile : disk.file? path = some f) (hnew : f ∉ known) :
    ∃ k', k = k' + 1 ∧ Fresh disk (known ++ [f]) k' := by
  obtain ⟨fresh, hlength, hfresh⟩ := h
  obtain ⟨xs, ys, rfl⟩ := List.append_of_mem ((hfresh path f hfile).resolve_left hnew)
  rw [List.length_append, List.length_cons] at hlength
  refine ⟨k - 1, by omega, xs ++ ys, by rw [List.length_append]; omega, fun path' g hg => ?_⟩
  have hcases := hfresh path' g hg
  simp only [List.mem_append, List.mem_cons] at hcases
  rcases hcases with h | h | h | h <;> simp [h]

theorem Fresh.append (h : Fresh disk known k) (more : List F) : Fresh disk (known ++ more) k := by
  obtain ⟨fresh, hlength, hfresh⟩ := h
  refine ⟨fresh, hlength, fun path f hf => (hfresh path f hf).imp_left fun hknown => ?_⟩
  exact List.mem_append_left _ hknown

/-! ## The steps of loading -/

theorem runs_report (s : σ) (message : String) (span : Span) (l : Loading) :
    ∃ l', Runs s (report message span) l () l' ∧ l'.counters = l.counters ∧ l'.loaded = l.loaded :=
  ⟨_, .modify _, rfl, rfl⟩

theorem runs_forM_report {ι : Type} (s : σ) (es : List ι) (message : ι → String) (span : ι → Span)
    (l : Loading) :
    ∃ l', Runs s (es.forM fun e => report (message e) (span e)) l () l' ∧
      l'.counters = l.counters ∧ l'.loaded = l.loaded := by
  induction es generalizing l with
  | nil => exact ⟨l, .pure _, rfl, rfl⟩
  | cons e rest ih =>
    obtain ⟨l1, h1, hc1, hl1⟩ := runs_report s (message e) (span e) l
    obtain ⟨l2, h2, hc2, hl2⟩ := ih l1
    exact ⟨l2, h1.bind h2, hc2.trans hc1, hl2.trans hl1⟩

theorem runs_markLoaded_known (h : identity ∈ l.loaded) :
    Runs s (markLoaded identity) l false l := by
  unfold markLoaded
  refine Runs.get.bind ?_
  rw [if_pos (by simpa using h)]
  exact .pure _

theorem runs_markLoaded_new (h : identity ∉ l.loaded) :
    ∃ l', Runs s (markLoaded identity) l true l' ∧ l'.counters = l.counters ∧
      l'.loaded = l.loaded ++ [identity] := by
  refine ⟨{ l with loaded := l.loaded ++ [identity] }, ?_, rfl, rfl⟩
  unfold markLoaded
  refine Runs.get.bind ?_
  rw [if_neg (by simpa using h)]
  exact (Runs.modify _).bind (.pure _)

variable {disk : Disk F} {s : σ}

theorem firstFile?_eq (hserves : disk.Serves host s) (paths : List String) :
    firstFile? host paths s = (disk.locate? paths, s) := by
  induction paths with
  | nil => rfl
  | cons path rest ih =>
    change (fun q : Bool × σ => (if q.1 = true then Pure.pure (some path)
      else firstFile? host rest : StateM σ (Option String)) q.2) (host.isFile path s) = _
    rw [hserves.isFile, Disk.locate?, List.find?_cons]
    cases (disk.file? path).isSome with
    | true => rfl
    | false => exact ih

/-- With nesting to a depth of `k` or more, a way of loading computes the walk through a passage. -/
def Computes (disk : Disk F) (includes : List String) (s : σ) (known : List F)
    (load : Nat → Load (StateM σ) (List Item)) (passage : Passage F) (l : Loading) (k : Nat) : Prop :=
  ∃ out met l', (∀ depth, k ≤ depth → Runs s (load depth) l out l') ∧
    disk.Splices includes passage l.counters out met l'.counters ∧ FirstMeetings known met ∧
    l'.Knows disk (known ++ met.map Meeting.file)

/-- New files are walked through, if `k` more files at most are left. -/
def ComputesFiles (host : Host (StateM σ)) (disk : Disk F) (includes : List String) (s : σ)
    (k : Nat) : Prop :=
  ∀ known path f text module l, disk.content f = .ok text → f ∉ known →
    Knows l disk (known ++ [f]) → Fresh disk (known ++ [f]) k →
    Computes disk includes s known (fun depth => loadText host includes depth path text module)
      (.file path f module) l (k + 1)

theorem computes_importing (hserves : disk.Serves host s) (hfaithful : disk.Faithful)
    (hfiles : ∀ k', k = k' + 1 → ComputesFiles host disk includes s k') {i : Import}
    (hknows : l.Knows disk known) (hfresh : Fresh disk known k) : Computes disk includes s known
      (fun depth => importItems host includes dir (loadText host includes depth) i)
      (.importing dir i) l k := by
  have hfirst := firstFile?_eq hserves (candidates includes dir i)
  cases hlocate : disk.locate? (candidates includes dir i) with
  | none =>
    rw [hlocate] at hfirst
    obtain ⟨l1, hrun, hcounters, hloaded⟩ :=
      runs_report s s!"Could not resolve module '{i.dotted}'" i.span l
    refine ⟨[], [], l1, fun depth _ => ?_, hcounters ▸ .missing hlocate, True.intro, ?_⟩
    · exact (Runs.lift hfirst).bind (hrun.bind (.pure _))
    · rw [List.map_nil, List.append_nil]
      exact hknows.of_loaded hloaded
  | some path =>
    rw [hlocate] at hfirst
    obtain ⟨f, hfile⟩ := Disk.exists_file_of_locate? hlocate
    have hidentity := hserves.identity path
    by_cases hknown : f ∈ known
    · refine ⟨[], [⟨path, f, i.dotted, .again⟩], l, fun depth _ => ?_, .again hlocate hfile,
        ⟨by simp [hknown], True.intro⟩, ?_⟩
      · refine (Runs.lift hfirst).bind ((Runs.lift hidentity).bind ?_)
        exact (runs_markLoaded_known ((hknows path f hfile).mpr hknown)).bind (.pure _)
      · intro q g hg
        rw [hknows q g hg]
        simp only [List.map_cons, List.map_nil, List.mem_append, List.mem_singleton]
        exact ⟨.inl, fun h => h.elim id fun hgf => hgf ▸ hknown⟩
    · obtain ⟨l1, hmark, hcounters1, hloaded1⟩ :=
        runs_markLoaded_new (s := s) (mt (hknows path f hfile).mp hknown)
      have hread := hserves.read path f hfile
      have hknows1 := hknows.add hfaithful hfile hloaded1
      cases hcontent : disk.content f with
      | error e =>
        rw [hcontent] at hread
        obtain ⟨l2, hrun, hcounters2, hloaded2⟩ :=
          runs_report s s!"Could not read module '{i.dotted}': {e.message}" i.span l1
        refine ⟨[], [⟨path, f, i.dotted, .unreadable⟩], l2, fun depth _ => ?_,
          .imported hlocate hfile ?_, ⟨by simp [hknown], True.intro⟩,
          hknows1.of_loaded hloaded2⟩
        · refine (Runs.lift hfirst).bind ((Runs.lift hidentity).bind (hmark.bind ?_))
          exact (Runs.lift hread).bind (hrun.bind (.pure _))
        · rw [hcounters2, hcounters1]
          exact .unreadable hcontent
      | ok text =>
        rw [hcontent] at hread
        obtain ⟨k', rfl, hfresh'⟩ := hfresh.take hfile hknown
        obtain ⟨out, met, l2, hrun, hwalk, hmet, hknows2⟩ :=
          hfiles k' rfl known path f text i.dotted l1 hcontent hknown hknows1 hfresh'
        refine ⟨out, met, l2, fun depth hdepth => ?_, .imported hlocate hfile (hcounters1 ▸ hwalk),
          hmet, hknows2⟩
        refine (Runs.lift hfirst).bind ((Runs.lift hidentity).bind (hmark.bind ?_))
        exact (Runs.lift hread).bind (hrun depth hdepth)

theorem Computes.keep (hitem : ∀ i, item ≠ .importing i)
    (hload : ∀ depth, load' depth = do return item.inModule module :: (← load depth))
    (h : Computes disk includes s known load (.items dir module rest) l k) :
    Computes disk includes s known load' (.items dir module (item :: rest)) l k := by
  obtain ⟨out, met, l1, hrun, hwalk, hmet, hknows⟩ := h
  refine ⟨item.inModule module :: out, met, l1, fun depth hdepth => ?_, .keep hitem hwalk, hmet,
    hknows⟩
  rw [hload]
  exact (hrun depth hdepth).bind (.pure _)

theorem computes_items {importing : Nat → Import → Load (StateM σ) (List Item)}
    (himport : ∀ known i l, Knows l disk known → Fresh disk known k →
      Computes disk includes s known (fun depth => importing depth i) (.importing dir i) l k)
    (items : List Item) (hknows : l.Knows disk known) (hfresh : Fresh disk known k) :
    Computes disk includes s known (fun depth => spliceItems module (importing depth) items)
      (.items dir module items) l k := by
  induction items generalizing known l with
  | nil => exact ⟨[], [], l, fun _ _ => .pure _, .nil, True.intro, by simpa using hknows⟩
  | cons item rest ih =>
    cases item with
    | importing i =>
      obtain ⟨inner, met, l1, hrun, hwalk, hmet, hknows1⟩ := himport known i l hknows hfresh
      obtain ⟨out, met', l2, hrun', hwalk', hmet', hknows2⟩ := ih hknows1 (hfresh.append _)
      refine ⟨inner ++ out, met ++ met', l2, fun depth hdepth => ?_, .replace hwalk hwalk',
        FirstMeetings.append_iff.mpr ⟨hmet, hmet'⟩, ?_⟩
      · exact (hrun depth hdepth).bind ((hrun' depth hdepth).bind (.pure _))
      · rwa [List.map_append, ← List.append_assoc]
    | fn f | struct d | foreign d => exact (ih hknows hfresh).keep (by simp) fun _ => rfl

theorem counters_add (l : Loading) (source : SourceFile) (next : Nat) :
    counters { l with sources := l.sources.add source, nextId := next } =
      ⟨l.counters.files + 1, next⟩ := by
  simp [counters, Sources.add]

theorem ComputesFiles.step (hserves : disk.Serves host s) (hfaithful : disk.Faithful)
    (hfiles : ∀ k', k = k' + 1 → ComputesFiles host disk includes s k') :
    ComputesFiles host disk includes s k := by
  intro known path f text module l hcontent hnew hknows hfresh
  cases hparse : Program.parse text l.sources.files.length l.nextId with
  | error es =>
    obtain ⟨l1, hrun, hcounters, hloaded⟩ := runs_forM_report s es SyntaxError.message
      SyntaxError.span { l with sources := l.sources.add ⟨path, text⟩ }
    refine ⟨[], [⟨path, f, module, .malformed⟩], l1, fun depth hdepth => ?_, ?_,
      ⟨by simp [hnew], True.intro⟩, hknows.of_loaded hloaded⟩
    · obtain ⟨depth, rfl⟩ := Nat.exists_eq_add_of_lt hdepth
      refine Runs.get.bind ((Runs.set _).bind ?_)
      rw [hparse]
      exact hrun.bind (.pure _)
    · rw [hcounters, counters_add]
      exact .malformed hcontent hparse
  | ok r =>
    obtain ⟨p, next⟩ := r
    have hitems : Computes disk includes s (known ++ [f]) _
        (.items (Path.parent path) module p.items)
        { l with sources := l.sources.add ⟨path, text⟩, nextId := next } k :=
      computes_items (fun known i l => computes_importing hserves hfaithful hfiles) p.items
        hknows hfresh
    obtain ⟨out, met, l1, hrun, hwalk, hmet, hknows1⟩ := hitems
    rw [counters_add] at hwalk
    refine ⟨out, ⟨path, f, module, .taken p⟩ :: met, l1, fun depth hdepth => ?_,
      .taken hcontent hparse hwalk, ⟨by simp [hnew], hmet⟩, ?_⟩
    · obtain ⟨depth, rfl⟩ := Nat.exists_eq_add_of_lt hdepth
      refine Runs.get.bind ((Runs.set _).bind ?_)
      rw [hparse]
      exact (Runs.modify _).bind (hrun _ (by omega))
    · rwa [List.map_cons, ← List.singleton_append, ← List.append_assoc]

/-- The induction is on the number of files that are left, not on the depth: a nested file is new. -/
theorem computesFiles (hserves : disk.Serves host s) (hfaithful : disk.Faithful) (k : Nat) :
    ComputesFiles host disk includes s k := by
  induction k with
  | zero => exact .step hserves hfaithful fun _ hk => by cases hk
  | succ k ih => exact .step hserves hfaithful fun _ hk => Nat.succ.inj hk ▸ ih

end Loading

/-! ## File trees as disks -/

namespace Path

theorem not_mem_of_mem_splitOn {cs : List Char} (h : part ∈ cs.splitOn '/') : '/' ∉ part := by
  induction cs generalizing part with
  | nil =>
    rw [List.splitOn_nil, List.mem_singleton] at h
    simp [h]
  | cons c cs ih =>
    rw [List.splitOn_cons_eq_if_modifyHead] at h
    split at h
    · rcases List.mem_cons.mp h with rfl | h
      · simp
      · exact ih h
    · next hc =>
      obtain ⟨first, rest, hsplit⟩ := List.exists_cons_of_ne_nil (List.splitOn_ne_nil '/' cs)
      rw [hsplit, List.modifyHead_cons] at h
      rw [hsplit] at ih
      rcases List.mem_cons.mp h with rfl | h
      · have hfirst := ih List.mem_cons_self
        simp only [beq_iff_eq] at hc
        simp [hfirst, Ne.symm hc]
      · exact ih (List.mem_cons_of_mem _ h)

def IsPart (part : String) : Prop := part ≠ "" ∧ '/' ∉ part.toList

theorem splitOn_ofParts (h : ∀ p ∈ ps, '/' ∉ p.toList) (hne : ps ≠ []) :
    (ofParts ps).toList.splitOn '/' = ps.map String.toList := by
  have htext : (ofParts ps).toList = ['/'].intercalate (ps.map String.toList) := by
    simp [ofParts, String.toList_intercalate]
  rw [htext]
  refine List.splitOn_intercalate '/' ?_ (by simpa using hne)
  intro cs hcs
  obtain ⟨p, hp, rfl⟩ := List.mem_map.mp hcs
  exact h p hp

theorem ofParts_ne_empty (h : ∀ p ∈ ps, IsPart p) (hne : ps ≠ []) :
    ofParts ps ≠ "" := by
  intro hempty
  have hsplit := splitOn_ofParts (fun p hp => (h p hp).2) hne
  cases ps with
  | nil => exact hne rfl
  | cons p rest =>
    rw [hempty, String.toList_empty, List.splitOn_nil, List.map_cons] at hsplit
    have hp : p.toList = "".toList := (List.cons.inj hsplit).1.symm
    exact (h p List.mem_cons_self).1 (String.toList_inj.mp hp)

theorem ofParts_inj_of_ne_nil (hps : ∀ p ∈ ps, '/' ∉ p.toList) (hqs : ∀ q ∈ qs, '/' ∉ q.toList)
    (hp : ps ≠ []) (hq : qs ≠ []) (h : ofParts ps = ofParts qs) : ps = qs := by
  have hsplit := splitOn_ofParts hps hp
  rw [h, splitOn_ofParts hqs hq] at hsplit
  exact ((List.map_inj_right fun _ _ => String.toList_inj.mp).mp hsplit).symm

theorem ofParts_inj (hps : ∀ p ∈ ps, IsPart p) (hqs : ∀ q ∈ qs, IsPart q) :
    ofParts ps = ofParts qs ↔ ps = qs := by
  refine ⟨fun h => ?_, fun h => h ▸ rfl⟩
  by_cases hp : ps = []
  · subst hp
    by_cases hq : qs = []
    · exact hq.symm
    · exact absurd h.symm (ofParts_ne_empty hqs hq)
  · by_cases hq : qs = []
    · subst hq
      exact absurd h (ofParts_ne_empty hps hp)
    · exact ofParts_inj_of_ne_nil (fun p hp => (hps p hp).2) (fun q hq => (hqs q hq).2) hp hq h

end Path

namespace FileTree

/-- The files of a tree, at their places. -/
def disk (t : FileTree) : Disk Place where
  file? path := (t.resolve path).toOption.filter fun place => (t.file? place).isSome
  content place :=
    match t.file? place with
    | none => .error .isADirectory
    | some bytes => (Utf8.decode bytes).mapError fun _ => .notUtf8
  identity path :=
    match t.resolve path with
    | .ok place => Path.ofParts place
    | .error _ => path

variable {t : FileTree}

theorem disk_file?_eq_some :
    t.disk.file? path = some place ↔ t.resolve path = .ok place ∧ (t.file? place).isSome := by
  unfold disk
  cases hresolve : t.resolve path with
  | error e => simp [hresolve, Except.toOption]
  | ok place' => simp [hresolve, Except.toOption, Option.filter_eq_some_iff]

theorem isFile_eq (path : String) : t.isFile path = (t.disk.file? path).isSome := by
  unfold isFile disk
  cases hresolve : t.resolve path with
  | error e => simp [hresolve, Except.toOption]
  | ok place => cases hfile : t.file? place <;> simp [hresolve, hfile, Except.toOption]

theorem read_eq (h : t.resolve path = .ok place) :
    t.read path = t.disk.content place := by
  unfold read disk
  rw [h]
  rfl

theorem serves_host (t : FileTree) : t.disk.Serves host t where
  isFile path := by
    change (t.isFile path, t) = _
    rw [isFile_eq]
  identity path := rfl
  read path f hfile := by
    change (t.read path, t) = _
    rw [read_eq (disk_file?_eq_some.mp hfile).1]

/-- Following a path adds parts of the path to a place, or takes some off. -/
theorem mem_of_follow (h : t.follow place parts = .ok place') :
    ∀ p ∈ place', p ∈ place ∨ p ∈ parts ∧ p ≠ "" := by
  induction parts generalizing place with
  | nil =>
    cases h
    exact fun p hp => .inl hp
  | cons part rest ih =>
    unfold follow at h
    intro p hp
    split at h
    · cases h
    split at h
    · exact (ih h p hp).imp_right fun hrest => ⟨List.mem_cons_of_mem _ hrest.1, hrest.2⟩
    next hpart =>
    split at h
    · split at h
      · cases h
      · rcases ih h p hp with hplace | hrest
        · exact .inl (List.dropLast_subset _ hplace)
        · exact .inr ⟨List.mem_cons_of_mem _ hrest.1, hrest.2⟩
    · dsimp only at h
      split at h
      · rcases ih h p hp with hplace | hrest
        · rcases List.mem_append.mp hplace with hplace | hlast
          · exact .inl hplace
          · rw [List.mem_singleton.mp hlast]
            refine .inr ⟨List.mem_cons_self, fun hempty => hpart ?_⟩
            simp [hempty]
        · exact .inr ⟨List.mem_cons_of_mem _ hrest.1, hrest.2⟩
      · cases h

theorem isPart_of_resolve (h : t.resolve path = .ok place) :
    ∀ p ∈ place, Path.IsPart p := by
  intro p hp
  unfold resolve at h
  split at h
  · cases h
  · rcases mem_of_follow h p hp with hnil | ⟨hpart, hne⟩
    · cases hnil
    · obtain ⟨cs, hcs, rfl⟩ := List.mem_map.mp hpart
      exact ⟨hne, by simpa using Path.not_mem_of_mem_splitOn hcs⟩

theorem faithful_disk (t : FileTree) : t.disk.Faithful := by
  intro path path' f g hf hg
  have hf' := (disk_file?_eq_some.mp hf).1
  have hg' := (disk_file?_eq_some.mp hg).1
  simp only [disk, hf', hg']
  exact Path.ofParts_inj (isPart_of_resolve hf') (isPart_of_resolve hg')

theorem mem_files_of_disk (h : t.disk.file? path = some place) :
    place ∈ t.files.map Prod.fst := by
  obtain ⟨bytes, hbytes⟩ := Option.isSome_iff_exists.mp (disk_file?_eq_some.mp h).2
  obtain ⟨before, after, hfiles, -⟩ := List.lookup_eq_some_iff.mp hbytes
  rw [hfiles]
  simp

end FileTree

/-! ## Loading an entry file -/

namespace Loading

variable {host : Host (StateM σ)} {disk : Disk F}

theorem loadEntry_of_error (hread : host.read path s = (.error e, s)) :
    (loadEntry host includes depth path).run s = (.error e, s) := by
  simp only [loadEntry, StateT.run, bind, StateT.bind, hread]
  rfl

theorem loadEntry_of_runs
    (hread : host.read path s = (.ok text, s)) (hidentity : host.identity path s = (identity, s))
    (hrun : Runs s (loadText host includes depth path text "")
      { empty with loaded := [identity] } items l) :
    (loadEntry host includes depth path).run s = (.ok (⟨items⟩, l), s) := by
  unfold Runs at hrun
  simp only [loadEntry, StateT.run, bind, StateT.bind, hread, hidentity, hrun]
  rfl

/-- On a file system that does not change and tells files apart, loading an entry file fails if that file
cannot be read, and otherwise gives its items with the imports spliced in. Even where imports run in
circles, files never nest deeper than there are files. -/
theorem loadEntry_splices (hserves : disk.Serves host s) (hfaithful : disk.Faithful)
    {files : List F} (hfiles : ∀ path f, disk.file? path = some f → f ∈ files)
    (includes : List String) {entry : F} (hentry : disk.file? path = some entry) :
    (∀ e, disk.content entry = .error e →
      ∀ depth, (loadEntry host includes depth path).run s = (.error e, s)) ∧
    (∀ text, disk.content entry = .ok text → ∃ items met l,
      disk.SplicesEntry includes path entry items met ∧
      ∀ depth, files.length ≤ depth →
        (loadEntry host includes depth path).run s = (.ok (⟨items⟩, l), s)) := by
  have hread := hserves.read path entry hentry
  refine ⟨fun e he depth => loadEntry_of_error (he ▸ hread), fun text htext => ?_⟩
  have hall : Fresh disk [] files.length := ⟨files, Nat.le_refl _, fun q f hf => .inr (hfiles q f hf)⟩
  obtain ⟨k, hk, hfresh⟩ := hall.take hentry (by simp)
  have hnone : empty.Knows disk ([] : List F) := fun _ _ _ => by simp [empty]
  have hknows := @Knows.add _ disk empty { empty with loaded := [disk.identity path] } [] path entry
    hfaithful hentry hnone rfl
  obtain ⟨items, met, l, hrun, hwalk, hmet, -⟩ :=
    computesFiles hserves hfaithful k [] path entry text "" _ htext (by simp) hknows hfresh
  refine ⟨items, met, l, hwalk.splicesEntry hmet, fun depth hdepth => ?_⟩
  exact loadEntry_of_runs (htext ▸ hread) (hserves.identity path) (hrun depth (hk ▸ hdepth))

/-- Files that import each other, one that is malformed, and an import that leads nowhere. -/
def circle : FileTree where
  files := [
    (["m.spz"], Utf8.encode "import a import b import x fn f() -> i32 { return 1 }"),
    (["a.spz"], Utf8.encode "import b import m fn g() -> i32 { return 1 }"),
    (["b.spz"], Utf8.encode "import a import c fn h() -> i32 { return 1 }"),
    (["c.spz"], Utf8.encode "fn")]

/-- The names of the functions that were loaded, with their modules. -/
def functionNames : Except FileError (Program × Loading) → List (String × String)
  | .error _ => []
  | .ok (p, _) => p.items.flatMap fun item =>
    match item with
    | .fn f => [(f.name, f.module)]
    | _ => []

theorem loadEntry_splices_circle : ∃ items met l,
    circle.disk.SplicesEntry [] "m.spz" ["m.spz"] items met ∧
    (∀ depth, 4 ≤ depth →
      (loadEntry FileTree.host [] depth "m.spz").run circle = (.ok (⟨items⟩, l), circle)) ∧
    functionNames (.ok (⟨items⟩, l)) = [("h", "b"), ("g", "a"), ("f", "")] := by
  have hentry : circle.disk.file? "m.spz" = some ["m.spz"] := by decide +kernel
  obtain ⟨items, met, l, hspliced, hrun⟩ := (loadEntry_splices circle.serves_host
    circle.faithful_disk (fun _ _ => FileTree.mem_files_of_disk) [] hentry).2
    "import a import b import x fn f() -> i32 { return 1 }" rfl
  refine ⟨items, met, l, hspliced, hrun, ?_⟩
  have hnames : functionNames ((loadEntry FileTree.host [] 4 "m.spz").run circle).1 =
      [("h", "b"), ("g", "a"), ("f", "")] := by
    decide +kernel
  rwa [hrun 4 (Nat.le_refl 4)] at hnames

end Loading

end StructLang
