import StructLang.Splice

/-!
# The order of spliced imports

What loading should make of an entry file on a file system that does not change. `Disk.Splices` walks
through files and their imports depth first and from left to right; it lists every meeting with a file,
and leaves open at which meetings the file is skipped as known. `FirstMeetings` settles that: a file is
skipped exactly if it was met before. The two determine the items (`Disk.Splices.unique`), and each file
then gives its items once (`Disk.Splices.perm_contributions`), under the name of the import that led to it
(`Disk.Splices.exists_import`).
-/

namespace StructLang

variable {σ F : Type}

/-! ## File systems -/

/-- A file system that does not change: which file a path leads to, what a file holds, and the text by
which a path is recognised. -/
structure Disk (F : Type) where
  file? : String → Option F
  content : F → Except FileError String
  identity : String → String

namespace Disk

/-- Paths are recognised as the same exactly if they lead to the same file. -/
def Faithful (disk : Disk F) : Prop :=
  ∀ p q f g, disk.file? p = some f → disk.file? q = some g →
    (disk.identity p = disk.identity q ↔ f = g)

/-- The host answers from the disk and stays as it is. -/
structure Serves (disk : Disk F) (host : Host (StateM σ)) (s : σ) : Prop where
  isFile : ∀ path, host.isFile path s = ((disk.file? path).isSome, s)
  identity : ∀ path, host.identity path s = (disk.identity path, s)
  read : ∀ path f, disk.file? path = some f → host.read path s = (disk.content f, s)

def locate? (disk : Disk F) (paths : List String) : Option String :=
  paths.find? fun path => (disk.file? path).isSome

theorem exists_file_of_locate? {disk : Disk F} (h : disk.locate? paths = some path) :
    ∃ f, disk.file? path = some f :=
  Option.isSome_iff_exists.mp (List.find?_some (p := fun path => (disk.file? path).isSome) h)

end Disk

/-! ## The walk through the imports -/

/-- What becomes of a file where it is met. -/
inductive Fate where
  | again
  | unreadable
  | malformed
  | taken (program : Program)

/-- A meeting with a file that was reached by a path, under the dotted name of a module. -/
structure Meeting (F : Type) where
  path : String
  file : F
  module : String
  fate : Fate

/-- How many texts have been read, and the first number that no node has. -/
structure Counters where
  files : Nat
  nextId : Nat

/-- A part of the walk: a file that was reached by a path, or an import or items in a directory. -/
inductive Passage (F : Type) where
  | file (path : String) (f : F) (module : String)
  | importing (dir : String) (i : Import)
  | items (dir module : String) (items : List Item)

/-- An item as part of a module; only functions say to which one they belong. -/
def Item.inModule (module : String) : Item → Item
  | .fn f => .fn { f with module := module }
  | item => item

/-- The items for which a passage stands, and the meetings with files on the way. -/
inductive Disk.Splices (disk : Disk F) (includes : List String) :
    Passage F → Counters → List Item → List (Meeting F) → Counters → Prop where
  | unreadable {path module : String} {f : F} {n : Counters} {e : FileError}
      (hread : disk.content f = .error e) :
      Splices disk includes (.file path f module) n [] [⟨path, f, module, .unreadable⟩] n
  | malformed {path module text : String} {f : F} {n : Counters} {es : List SyntaxError}
      (hread : disk.content f = .ok text)
      (hparse : Program.parse text n.files n.nextId = .error es) :
      Splices disk includes (.file path f module) n [] [⟨path, f, module, .malformed⟩]
        ⟨n.files + 1, n.nextId⟩
  | taken {path module text : String} {f : F} {n n' : Counters} {p : Program} {next : Nat}
      {out : List Item} {met : List (Meeting F)} (hread : disk.content f = .ok text)
      (hparse : Program.parse text n.files n.nextId = .ok (p, next))
      (h : Splices disk includes (.items (Path.parent path) module p.items) ⟨n.files + 1, next⟩
        out met n') :
      Splices disk includes (.file path f module) n out (⟨path, f, module, .taken p⟩ :: met) n'
  | missing {dir : String} {i : Import} {n : Counters}
      (hlocate : disk.locate? (Loading.candidates includes dir i) = none) :
      Splices disk includes (.importing dir i) n [] [] n
  | again {dir path : String} {f : F} {i : Import} {n : Counters}
      (hlocate : disk.locate? (Loading.candidates includes dir i) = some path)
      (hfile : disk.file? path = some f) :
      Splices disk includes (.importing dir i) n [] [⟨path, f, i.dotted, .again⟩] n
  | imported {dir path : String} {f : F} {i : Import} {out : List Item} {met : List (Meeting F)}
      {n n' : Counters}
      (hlocate : disk.locate? (Loading.candidates includes dir i) = some path)
      (hfile : disk.file? path = some f)
      (h : Splices disk includes (.file path f i.dotted) n out met n') :
      Splices disk includes (.importing dir i) n out met n'
  | nil {dir module : String} {n : Counters} : Splices disk includes (.items dir module []) n [] [] n
  | keep {dir module : String} {item : Item} {rest out : List Item} {met : List (Meeting F)}
      {n n' : Counters} (hitem : ∀ i, item ≠ .importing i)
      (h : Splices disk includes (.items dir module rest) n out met n') :
      Splices disk includes (.items dir module (item :: rest)) n (item.inModule module :: out) met n'
  | replace {dir module : String} {i : Import} {rest inner out : List Item}
      {met met' : List (Meeting F)} {n n1 n' : Counters}
      (himport : Splices disk includes (.importing dir i) n inner met n1)
      (h : Splices disk includes (.items dir module rest) n1 out met' n') :
      Splices disk includes (.items dir module (.importing i :: rest)) n (inner ++ out)
        (met ++ met') n'

/-- A file is skipped exactly if it is known already or was met before. -/
def FirstMeetings : List F → List (Meeting F) → Prop
  | _, [] => True
  | known, m :: met => (m.fate = .again ↔ m.file ∈ known) ∧ FirstMeetings (known ++ [m.file]) met

namespace FirstMeetings

variable {met : List (Meeting F)}

theorem append_iff : FirstMeetings known (met ++ met') ↔
    FirstMeetings known met ∧ FirstMeetings (known ++ met.map Meeting.file) met' := by
  induction met generalizing known with
  | nil => simp [FirstMeetings]
  | cons m met ih => simp [FirstMeetings, ih, and_assoc]

theorem again_iff (h : FirstMeetings known (before ++ m :: after)) :
    m.fate = .again ↔ m.file ∈ known ++ before.map Meeting.file :=
  (append_iff.mp h).2.1

theorem pairwise (h : FirstMeetings known met) :
    met.Pairwise fun m m' => m.file = m'.file → m'.fate = .again := by
  induction met generalizing known with
  | nil => exact .nil
  | cons m met ih =>
    refine List.pairwise_cons.mpr ⟨fun m' hm' hfile => ?_, ih h.2⟩
    obtain ⟨before, after, rfl⟩ := List.append_of_mem hm'
    refine h.2.again_iff.mpr ?_
    simp [hfile]

end FirstMeetings

namespace Disk.Splices

variable {disk : Disk F}

theorem exists_meeting (h : disk.Splices includes (.file path f module) n out met n') :
    ∃ fate rest, met = ⟨path, f, module, fate⟩ :: rest ∧ fate ≠ .again := by
  cases h with
  | unreadable => exact ⟨.unreadable, [], rfl, by simp⟩
  | malformed => exact ⟨.malformed, [], rfl, by simp⟩
  | @taken _ _ _ _ _ _ p _ _ met => exact ⟨.taken p, met, rfl, by simp⟩

theorem not_mem_known (h : disk.Splices includes (.file path f module) n out met n')
    (hfirst : FirstMeetings known met) : f ∉ known := by
  obtain ⟨fate, rest, rfl, hfate⟩ := h.exists_meeting
  exact fun hmem => hfate (hfirst.1.mpr hmem)

/-- Only one walk skips exactly the files that were met before. -/
theorem unique (h : disk.Splices includes passage n out met n')
    (h' : disk.Splices includes passage n out' met' n'') (hfirst : FirstMeetings known met)
    (hfirst' : FirstMeetings known met') : out = out' ∧ met = met' ∧ n' = n'' := by
  induction h generalizing known out' met' n'' with
  | unreadable hread =>
    cases h' with
    | unreadable => exact ⟨rfl, rfl, rfl⟩
    | malformed hread' | taken hread' => cases hread.symm.trans hread'
  | malformed hread hparse =>
    cases h' with
    | unreadable hread' => cases hread.symm.trans hread'
    | malformed => exact ⟨rfl, rfl, rfl⟩
    | taken hread' hparse' =>
      cases hread.symm.trans hread'
      cases hparse.symm.trans hparse'
  | taken hread hparse _ ih =>
    cases h' with
    | unreadable hread' => cases hread.symm.trans hread'
    | malformed hread' hparse' =>
      cases hread.symm.trans hread'
      cases hparse.symm.trans hparse'
    | taken hread' hparse' hitems =>
      cases hread.symm.trans hread'
      cases hparse.symm.trans hparse'
      obtain ⟨rfl, rfl, rfl⟩ := ih hitems hfirst.2
        hfirst'.2
      exact ⟨rfl, rfl, rfl⟩
  | missing hlocate =>
    cases h' with
    | missing => exact ⟨rfl, rfl, rfl⟩
    | again hlocate' | imported hlocate' => cases hlocate.symm.trans hlocate'
  | again hlocate hfile =>
    cases h' with
    | missing hlocate' => cases hlocate.symm.trans hlocate'
    | again hlocate' hfile' =>
      cases hlocate.symm.trans hlocate'
      cases hfile.symm.trans hfile'
      exact ⟨rfl, rfl, rfl⟩
    | imported hlocate' hfile' hwalk =>
      cases hlocate.symm.trans hlocate'
      cases hfile.symm.trans hfile'
      exact absurd (hfirst.1.mp rfl) (hwalk.not_mem_known hfirst')
  | imported hlocate hfile hwalk ih =>
    cases h' with
    | missing hlocate' => cases hlocate.symm.trans hlocate'
    | again hlocate' hfile' =>
      cases hlocate.symm.trans hlocate'
      cases hfile.symm.trans hfile'
      exact absurd (hfirst'.1.mp rfl) (hwalk.not_mem_known hfirst)
    | imported hlocate' hfile' hwalk' =>
      cases hlocate.symm.trans hlocate'
      cases hfile.symm.trans hfile'
      exact ih hwalk' hfirst hfirst'
  | nil =>
    cases h' with
    | nil => exact ⟨rfl, rfl, rfl⟩
  | keep hitem _ ih =>
    cases h' with
    | keep _ hrest =>
      obtain ⟨rfl, rfl, rfl⟩ := ih hrest hfirst hfirst'
      exact ⟨rfl, rfl, rfl⟩
    | replace => exact absurd rfl (hitem _)
  | replace _ _ ihimport ihrest =>
    cases h' with
    | keep hitem => exact absurd rfl (hitem _)
    | replace himport hrest =>
      obtain ⟨hmet, hmet'⟩ := FirstMeetings.append_iff.mp hfirst
      obtain ⟨kmet, kmet'⟩ := FirstMeetings.append_iff.mp hfirst'
      obtain ⟨rfl, rfl, rfl⟩ := ihimport himport hmet kmet
      obtain ⟨rfl, rfl, rfl⟩ := ihrest hrest hmet' kmet'
      exact ⟨rfl, rfl, rfl⟩

end Disk.Splices

/-! ## Where spliced items come from -/

def Item.ownItems (module : String) : List Item → List Item
  | [] => []
  | .importing _ :: rest => ownItems module rest
  | item :: rest => item.inModule module :: ownItems module rest

/-- What a file gives where it is met: its own items, if it is taken. -/
def Meeting.contribution (m : Meeting F) : List Item :=
  match m.fate with
  | .taken p => Item.ownItems m.module p.items
  | _ => []

theorem Item.ownItems_cons (h : ∀ i, item ≠ .importing i) (rest : List Item) :
    Item.ownItems module (item :: rest) = item.inModule module :: Item.ownItems module rest := by
  cases item with
  | importing i => exact absurd rfl (h i)
  | fn | struct | foreign => rfl

def Passage.ownItems : Passage F → List Item
  | .items _ module list => Item.ownItems module list
  | _ => []

/-- Up to their order, spliced items are those of the taken files, each file's where it was met. -/
theorem Disk.Splices.perm_contributions {disk : Disk F}
    (h : disk.Splices includes passage n out met n') :
    out.Perm (passage.ownItems ++ met.flatMap Meeting.contribution) := by
  induction h with
  | unreadable | malformed => exact .refl _
  | taken _ _ _ ih => exact ih
  | missing | again => exact .refl _
  | imported _ _ _ ih => exact ih
  | nil => exact .refl _
  | keep hitem _ ih =>
    simp only [Passage.ownItems, Item.ownItems_cons hitem] at ih ⊢
    exact ih.cons _
  | @replace _ module i rest inner out met met' _ _ _ _ _ ihimport ihrest =>
    simp only [Passage.ownItems, Item.ownItems, List.nil_append, List.flatMap_append] at ihimport ihrest ⊢
    calc inner ++ out
      _ |>.Perm (met.flatMap Meeting.contribution ++
          (Item.ownItems module rest ++ met'.flatMap Meeting.contribution)) :=
        ihimport.append ihrest
      _ |>.Perm (Item.ownItems module rest ++ (met.flatMap Meeting.contribution ++
          met'.flatMap Meeting.contribution)) := by
        rw [← List.append_assoc, ← List.append_assoc]
        exact .append_right _ List.perm_append_comm

def Disk.LeadsTo (disk : Disk F) (includes : List String) (dir : String) (i : Import)
    (m : Meeting F) : Prop :=
  disk.locate? (Loading.candidates includes dir i) = some m.path ∧ disk.file? m.path = some m.file ∧
    m.module = i.dotted

/-- A taken file has an import that leads to the file that is met. -/
def Disk.Imports (disk : Disk F) (includes : List String) (m m' : Meeting F) : Prop :=
  ∃ p i, m.fate = .taken p ∧ .importing i ∈ p.items ∧
    disk.LeadsTo includes (Path.parent m.path) i m'

def Passage.Brings (disk : Disk F) (includes : List String) (m : Meeting F) : Passage F → Prop
  | .file path f module => m.path = path ∧ m.file = f ∧ m.module = module
  | .importing dir i => disk.LeadsTo includes dir i m
  | .items dir _ list => ∃ i, .importing i ∈ list ∧ disk.LeadsTo includes dir i m

/-- A file is met where a walk starts with it, or through an import of a taken file. -/
theorem Disk.Splices.exists_import {disk : Disk F}
    (h : disk.Splices includes passage n out met n') :
    ∀ m ∈ met, passage.Brings disk includes m ∨ ∃ m' ∈ met, disk.Imports includes m' m := by
  induction h with
  | unreadable | malformed => exact List.forall_mem_singleton.mpr (.inl ⟨rfl, rfl, rfl⟩)
  | @taken _ _ _ _ _ _ p _ _ _ _ _ _ ih =>
    refine List.forall_mem_cons.mpr ⟨.inl ⟨rfl, rfl, rfl⟩, fun m hm => .inr ?_⟩
    rcases ih m hm with ⟨i, hi, hleads⟩ | ⟨m', hm', himports⟩
    · exact ⟨_, List.mem_cons_self, p, i, rfl, hi, hleads⟩
    · exact ⟨m', List.mem_cons_of_mem _ hm', himports⟩
  | missing => simp
  | again hlocate hfile => exact List.forall_mem_singleton.mpr (.inl ⟨hlocate, hfile, rfl⟩)
  | imported hlocate hfile _ ih =>
    intro m hm
    refine (ih m hm).imp_left ?_
    rintro ⟨hpath, hf, hmodule⟩
    exact ⟨hpath ▸ hlocate, by rw [hpath, hf, hfile], hmodule⟩
  | nil => simp
  | keep _ _ ih =>
    intro m hm
    refine (ih m hm).imp_left ?_
    rintro ⟨i, hi, hleads⟩
    exact ⟨i, List.mem_cons_of_mem _ hi, hleads⟩
  | replace _ _ ihimport ihrest =>
    intro m hm
    rcases List.mem_append.mp hm with hm | hm
    · rcases ihimport m hm with hleads | ⟨m', hm', himports⟩
      · exact .inl ⟨_, List.mem_cons_self, hleads⟩
      · exact .inr ⟨m', List.mem_append_left _ hm', himports⟩
    · rcases ihrest m hm with ⟨i, hi, hleads⟩ | ⟨m', hm', himports⟩
      · exact .inl ⟨i, List.mem_cons_of_mem _ hi, hleads⟩
      · exact .inr ⟨m', List.mem_append_right _ hm', himports⟩

theorem Item.exists_of_fn_mem_ownItems (h : .fn f ∈ Item.ownItems module items) :
    ∃ g, .fn g ∈ items ∧ f = { g with module := module } := by
  induction items with
  | nil => cases h
  | cons item rest ih =>
    cases item with
    | importing i =>
      obtain ⟨g, hg, hf⟩ := ih h
      exact ⟨g, List.mem_cons_of_mem _ hg, hf⟩
    | fn g =>
      rcases List.mem_cons.mp h with hhead | hrest
      · exact ⟨g, List.mem_cons_self, Item.fn.inj hhead⟩
      · obtain ⟨g', hg', hf⟩ := ih hrest
        exact ⟨g', List.mem_cons_of_mem _ hg', hf⟩
    | struct d | foreign d =>
      obtain ⟨g, hg, hf⟩ := ih (List.mem_of_ne_of_mem (by simp [Item.inModule]) h)
      exact ⟨g, List.mem_cons_of_mem _ hg, hf⟩

/-! ## The items of an entry file -/

/-- Items are those of an entry file with its imports spliced in, where these files are met. -/
structure Disk.SplicesEntry (disk : Disk F) (includes : List String) (path : String) (f : F)
    (items : List Item) (met : List (Meeting F)) : Prop where
  walk : ∃ n, disk.Splices includes (.file path f "") ⟨0, 0⟩ items met n
  first : FirstMeetings [] met
  /-- No other items come from a walk that skips files where they are met again. -/
  only : ∀ items' met' n', disk.Splices includes (.file path f "") ⟨0, 0⟩ items' met' n' →
    FirstMeetings [] met' → items' = items ∧ met' = met
  once : met.Pairwise fun m m' => m.file = m'.file → m'.fate = .again
  gathered : items.Perm (met.flatMap Meeting.contribution)
  /-- A function bears the name under which its file was met first. -/
  modules : ∀ g, Item.fn g ∈ items → ∃ before m after p, met = before ++ m :: after ∧
    m.file ∉ before.map Meeting.file ∧ m.fate = .taken p ∧
    (∃ g', Item.fn g' ∈ p.items ∧ g = { g' with module := m.module }) ∧
    (m.file = f ∧ m.module = "" ∨ m.file ≠ f ∧ ∃ m' ∈ met, disk.Imports includes m' m)

theorem Meeting.exists_of_fn_mem_contribution {m : Meeting F} (h : .fn g ∈ m.contribution) :
    ∃ p g', m.fate = .taken p ∧ .fn g' ∈ p.items ∧ g = { g' with module := m.module } := by
  unfold Meeting.contribution at h
  split at h
  · next p hfate =>
    obtain ⟨g', hg', hg⟩ := Item.exists_of_fn_mem_ownItems h
    exact ⟨p, g', hfate, hg', hg⟩
  · cases h

theorem Disk.Splices.splicesEntry {disk : Disk F}
    (h : disk.Splices includes (.file path f "") ⟨0, 0⟩ items met n)
    (hfirst : FirstMeetings [] met) : disk.SplicesEntry includes path f items met where
  walk := ⟨n, h⟩
  first := hfirst
  only items' met' n' h' hfirst' := by
    obtain ⟨hitems, hmet, -⟩ := h'.unique h hfirst' hfirst
    exact ⟨hitems, hmet⟩
  once := hfirst.pairwise
  gathered := h.perm_contributions
  modules g hg := by
    obtain ⟨m, hm, hgm⟩ := List.mem_flatMap.mp (h.perm_contributions.mem_iff.mp hg)
    obtain ⟨p, g', hfate, hg', rfl⟩ := m.exists_of_fn_mem_contribution hgm
    obtain ⟨before, after, rfl⟩ := List.append_of_mem hm
    have hnew : m.file ∉ before.map Meeting.file := by
      intro hmem
      cases hfate.symm.trans (hfirst.again_iff.mpr hmem)
    refine ⟨before, m, after, p, rfl, hnew, hfate, ⟨g', hg', rfl⟩, ?_⟩
    by_cases hfile : m.file = f
    · -- The entry is met at the very start, so this meeting is that one.
      obtain ⟨fate, rest, hmet, -⟩ := h.exists_meeting
      cases before with
      | nil =>
        cases hmet
        exact .inl ⟨rfl, rfl⟩
      | cons m' before =>
        cases hmet
        exact absurd (by simp [hfile]) hnew
    · rcases h.exists_import m hm with ⟨-, hf, -⟩ | himports
      · exact absurd hf hfile
      · exact .inr ⟨hfile, himports⟩

end StructLang
