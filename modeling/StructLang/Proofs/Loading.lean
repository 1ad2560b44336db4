import StructLang.Proofs.Reading
import StructLang.Splice

/-!
# Loading keeps the grammar's guarantees

A program that was spliced together from several files is as good as one that was read from a single
text: the node counter is handed on from file to file, so node numbers stay distinct. The files may be
those of any host that runs in a state, changing ones included.
-/

namespace StructLang

namespace Loading

variable {σ α β : Type}

/-- Loading never turns the node counter back, and its result satisfies `P`. -/
def Loads (x : Load (StateM σ) α) (l : Loading) (P : α → Loading → Prop) : Prop :=
  ∀ s, l.nextId ≤ ((x l) s).1.2.nextId ∧ P ((x l) s).1.1 ((x l) s).1.2

namespace Loads

variable {P : α → Loading → Prop}

theorem pure (h : P a l) : Loads (pure a : Load (StateM σ) α) l P :=
  fun _ => ⟨Nat.le_refl _, h⟩

theorem bind (h : Loads x l P)
    (hk : ∀ a l', l.nextId ≤ l'.nextId → P a l' → Loads (k a) l' Q) : Loads (x >>= k) l Q := by
  intro s
  have hx := h s
  have hrest := hk _ _ hx.1 hx.2 (x l s).2
  exact ⟨Nat.le_trans hx.1 hrest.1, hrest.2⟩

theorem lift : Loads (StateT.lift y) l fun _ l' => l = l' :=
  fun _ => ⟨Nat.le_refl _, rfl⟩

theorem mono (h : Loads x l P)
    (hP : ∀ a l', l.nextId ≤ l'.nextId → P a l' → P' a l') : Loads x l P' :=
  fun s => ⟨(h s).1, hP _ _ (h s).1 (h s).2⟩

end Loads

def ItemsLoaded (l : Loading) (items : List Item) (l' : Loading) : Prop :=
  Numbered l.nextId l'.nextId (items.flatMap Item.ids) ∧ ∀ i ∈ items, i.Grammatical

theorem ItemsLoaded.nil (l l' : Loading) : ItemsLoaded l [] l' := ⟨.nil, by simp⟩

theorem loads_report (message : String) (span : Span) (l : Loading) :
    Loads (report message span : Load (StateM σ) Unit) l fun _ l' => l'.nextId = l.nextId :=
  fun _ => ⟨Nat.le_refl _, rfl⟩

theorem loads_markLoaded (identity : String) (l : Loading) :
    Loads (markLoaded identity : Load (StateM σ) Bool) l fun _ l' => l'.nextId = l.nextId := by
  unfold markLoaded
  refine Loads.bind (P := fun x l' => l = x ∧ l = l') (fun _ => ⟨Nat.le_refl _, rfl, rfl⟩) ?_
  rintro _ _ - ⟨rfl, rfl⟩
  split
  · exact .pure rfl
  · exact fun _ => ⟨Nat.le_refl _, rfl⟩

theorem loads_importItems (host : Host (StateM σ)) (includes : List String) (dir : String)
    (load : String → String → String → Load (StateM σ) (List Item)) (i : Import) (l : Loading)
    (hload : ∀ path text module l, Loads (load path text module) l (ItemsLoaded l)) :
    Loads (importItems host includes dir load i) l (ItemsLoaded l) := by
  unfold importItems
  refine Loads.lift.bind fun found _ _ hl => ?_
  subst hl
  split
  · exact (loads_report _ _ l).bind fun _ l1 _ _ => .pure (.nil _ _)
  · next path =>
    refine Loads.lift.bind fun identity _ _ hl => ?_
    subst hl
    refine (loads_markLoaded _ l).bind fun isNew l1 _ h1 => ?_
    split
    · exact .pure (.nil _ _)
    refine Loads.lift.bind fun text _ _ hl => ?_
    subst hl
    split
    · refine (hload _ _ _ l1).mono fun items l' _ h => ?_
      unfold ItemsLoaded at h ⊢
      rwa [← h1]
    · exact (loads_report _ _ l1).bind fun _ l2 _ _ => .pure (.nil _ _)

/-- Numbers of spliced items: those of the given items, and those drawn while splicing. -/
def Spliced (l : Loading) (items out : List Item) (l' : Loading) : Prop :=
  (out.flatMap Item.ids).Nodup ∧
  (∀ i ∈ out.flatMap Item.ids, i ∈ items.flatMap Item.ids ∨ l.nextId ≤ i ∧ i < l'.nextId) ∧
  ∀ i ∈ out, i.Grammatical

theorem Spliced.keep (hids : item'.ids = item.ids)
    (hgram : item'.Grammatical) (hnodup : ((item :: rest).flatMap Item.ids).Nodup)
    (hlt : ∀ i ∈ (item :: rest).flatMap Item.ids, i < l.nextId) (h : Spliced l rest out l') :
    Spliced l (item :: rest) (item' :: out) l' := by
  obtain ⟨hout, hmem, hg⟩ := h
  rw [List.flatMap_cons, List.nodup_append] at hnodup
  obtain ⟨hitem, -, hdisj⟩ := hnodup
  have hitemlt : ∀ i ∈ item.ids, i < l.nextId := fun i hi => hlt i (by simp [hi])
  refine ⟨?_, ?_, List.forall_mem_cons.mpr ⟨hgram, hg⟩⟩
  · rw [List.flatMap_cons, List.nodup_append, hids]
    refine ⟨hitem, hout, fun a ha b hb => ?_⟩
    rcases hmem b hb with hb | hb
    · exact hdisj a ha b hb
    · have := hitemlt a ha
      omega
  · intro i hi
    rw [List.flatMap_cons, List.mem_append, hids] at hi
    rw [List.flatMap_cons, List.mem_append]
    rcases hi with hi | hi
    · exact .inl (.inl hi)
    · exact (hmem i hi).imp_left .inr

theorem Spliced.insert (hle : l.nextId ≤ l1.nextId) (hle' : l1.nextId ≤ l'.nextId)
    (hlt : ∀ i ∈ rest.flatMap Item.ids, i < l.nextId) (hitems : ItemsLoaded l items l1)
    (h : Spliced l1 rest out l') : Spliced l (item :: rest) (items ++ out) l' := by
  obtain ⟨hout, hmem, hg⟩ := h
  obtain ⟨⟨hnodup, hrange⟩, hgram⟩ := hitems
  refine ⟨?_, ?_, List.forall_mem_append.mpr ⟨hgram, hg⟩⟩
  · rw [List.flatMap_append, List.nodup_append]
    refine ⟨hnodup, hout, fun a ha b hb => ?_⟩
    have := hrange a ha
    rcases hmem b hb with hb | hb
    · have := hlt b hb
      omega
    · omega
  · intro i hi
    rw [List.flatMap_append, List.mem_append] at hi
    rw [List.flatMap_cons, List.mem_append]
    rcases hi with hi | hi
    · have := hrange i hi
      omega
    · rcases hmem i hi with hi | hi
      · exact .inl (.inr hi)
      · omega

theorem loads_spliceItems (module : String) (importing : Import → Load (StateM σ) (List Item))
    (himport : ∀ i l, Loads (importing i) l (ItemsLoaded l)) (items : List Item) (l : Loading)
    (hnodup : (items.flatMap Item.ids).Nodup) (hlt : ∀ i ∈ items.flatMap Item.ids, i < l.nextId)
    (hgram : ∀ i ∈ items, i.Grammatical) :
    Loads (spliceItems module importing items) l (Spliced l items) := by
  induction items generalizing l with
  | nil => exact .pure ⟨by simp, by simp, by simp⟩
  | cons item rest ih =>
    have hrest : (rest.flatMap Item.ids).Nodup := by
      rw [List.flatMap_cons, List.nodup_append] at hnodup
      exact hnodup.2.1
    have hrestlt : ∀ i ∈ rest.flatMap Item.ids, i < l.nextId := fun i hi =>
      hlt i (by rw [List.flatMap_cons, List.mem_append]; exact .inr hi)
    obtain ⟨hitem, hrestgram⟩ := List.forall_mem_cons.mp hgram
    cases item with
    | importing i =>
      unfold spliceItems
      refine (himport i l).bind fun items l1 h1 hitems => ?_
      refine (ih l1 hrest (fun i hi => Nat.lt_of_lt_of_le (hrestlt i hi) h1) hrestgram).bind
        fun out l2 h2 hout => .pure ?_
      exact hout.insert h1 h2 hrestlt hitems
    | fn f =>
      unfold spliceItems
      refine (ih l hrest hrestlt hrestgram).bind fun out l1 _ hout => .pure ?_
      exact hout.keep rfl ⟨hitem.receiver, hitem.params, hitem.ret, hitem.body⟩ hnodup hlt
    | struct d | foreign d =>
      unfold spliceItems
      refine (ih l hrest hrestlt hrestgram).bind fun out l1 _ hout => .pure ?_
      exact hout.keep rfl hitem hnodup hlt

theorem loads_forM_report (es : List ι) (message : ι → String) (span : ι → Span) (l : Loading) :
    Loads (es.forM fun e => report (message e) (span e) : Load (StateM σ) Unit) l
      fun _ l' => l'.nextId = l.nextId := by
  induction es generalizing l with
  | nil => exact .pure rfl
  | cons e rest ih =>
    exact (loads_report _ _ l).bind fun _ l1 _ h1 =>
      (ih l1).mono fun _ l2 _ h2 => h2.trans h1

/-- Loading a text, with everything that it imports. -/
theorem loads_loadText (host : Host (StateM σ)) (includes : List String) (depth : Nat)
    (path text module : String) (l : Loading) :
    Loads (loadText host includes depth path text module) l (ItemsLoaded l) := by
  induction depth generalizing path text module l with
  | zero => exact .pure (.nil _ _)
  | succ depth ih =>
    unfold loadText
    refine Loads.bind (P := fun x l' => l = x ∧ l = l') (fun _ => ⟨Nat.le_refl _, rfl, rfl⟩) ?_
    rintro _ _ - ⟨rfl, rfl⟩
    refine Loads.bind (P := fun _ l' => l'.nextId = l.nextId) (fun _ => ⟨Nat.le_refl _, rfl⟩) ?_
    intro _ l1 _ h1
    split
    · exact (loads_forM_report _ _ _ l1).bind fun _ l2 _ _ => .pure (.nil _ _)
    · next p nextId hparse =>
      obtain ⟨hle, ⟨hnodup, hrange⟩, hgram⟩ := Program.parse_spec hparse
      refine Loads.bind (P := fun _ l' => l'.nextId = nextId)
        (fun _ => ⟨h1 ▸ hle, rfl⟩) fun _ l2 h2 hnext => ?_
      refine (loads_spliceItems module _ (fun i l => loads_importItems host includes _ _ i l ih)
        p.items l2 hnodup (fun i hi => hnext ▸ (hrange i hi).2) hgram).mono ?_
      intro out l3 h3 ⟨hout, hmem, hg⟩
      refine ⟨⟨hout, fun i hi => ?_⟩, hg⟩
      rcases hmem i hi with hi | hi
      · have := hrange i hi
        omega
      · omega

theorem itemsLoaded_of_loadText {host : Host (StateM σ)}
    (h : ((loadText host includes depth path text module).run l).run s = ((items, l'), s')) :
    l.nextId ≤ l'.nextId ∧ ItemsLoaded l items l' := by
  have hload := loads_loadText host includes depth path text module l s
  simp only [StateT.run] at h
  rwa [h] at hload

theorem exists_of_loadEntry {host : Host (StateM σ)}
    (h : (loadEntry host includes depth path).run s = (.ok (p, l), s')) :
    ∃ text start s1, start.nextId = 0 ∧
      ((loadText host includes depth path text "").run start).run s1 = ((p.items, l), s') := by
  simp only [loadEntry, StateT.run, bind, StateT.bind] at h
  cases hread : host.read path s with
  | mk r s1 =>
    rw [hread] at h
    cases r with
    | error e => cases h
    | ok text =>
      cases h
      exact ⟨text, { empty with loaded := [(host.identity path s1).1] },
        (host.identity path s1).2, rfl, rfl⟩

end Loading

/-- A program that was read from a text, or from an entry file with its imports. -/
inductive Program.Sourced (p : Program) : Prop where
  | parsed {source : String} {file firstId next : Nat}
      (h : Program.parse source file firstId = .ok (p, next))
  | loaded {σ : Type} {host : Host (StateM σ)} {includes : List String} {depth : Nat}
      {path : String} {s s' : σ} {l : Loading}
      (h : (Loading.loadEntry host includes depth path).run s = (.ok (p, l), s'))

theorem Program.Sourced.grammatical {p : Program} (h : p.Sourced) : p.Grammatical := by
  cases h with
  | parsed h => exact Program.grammatical_of_parse h
  | @loaded σ host includes depth path s s' l h =>
    obtain ⟨text, start, s1, -, hrun⟩ := Loading.exists_of_loadEntry h
    obtain ⟨-, hnumbered, hgram⟩ := Loading.itemsLoaded_of_loadText hrun
    exact ⟨hgram, hnumbered.1⟩

/-- No two nodes bear the same number, in a program from a single text as in one from many files, some of
which may be malformed; the numbers lie between the counter's value before and its value after. -/
theorem Program.nodes_numbered :
    (∀ source file firstId p next, Program.parse source file firstId = .ok (p, next) →
      firstId ≤ next ∧ Numbered firstId next p.ids) ∧
    (∀ {σ : Type} (host : Host (StateM σ)) includes depth path text module l s items l' s',
      ((Loading.loadText host includes depth path text module).run l).run s = ((items, l'), s') →
      l.nextId ≤ l'.nextId ∧ Numbered l.nextId l'.nextId (Program.mk items).ids) ∧
    (∀ {σ : Type} (host : Host (StateM σ)) includes depth path s p l s',
      (Loading.loadEntry host includes depth path).run s = (.ok (p, l), s') →
      Numbered 0 l.nextId p.ids) := by
  refine ⟨fun source file firstId p next h => ?_,
    fun host includes depth path text module l s items l' s' h => ?_,
    fun host includes depth path s p l s' h => ?_⟩
  · obtain ⟨hle, hnumbered, -⟩ := Program.parse_spec h
    exact ⟨hle, hnumbered⟩
  · obtain ⟨hle, hnumbered, -⟩ := Loading.itemsLoaded_of_loadText h
    exact ⟨hle, hnumbered⟩
  · obtain ⟨text, start, s1, hstart, hrun⟩ := Loading.exists_of_loadEntry h
    obtain ⟨-, hnumbered, -⟩ := Loading.itemsLoaded_of_loadText hrun
    exact hstart ▸ hnumbered

theorem exists_of_toOption_map {x : Except ε α}
    (h : x.toOption.map f = some b) : ∃ a, x = .ok a ∧ f a = b := by
  cases x with
  | error e => simp [Except.toOption] at h
  | ok a => exact ⟨a, rfl, Option.some.inj h⟩

/-- Three files, the first of which imports the others; the second is malformed. -/
def FileTree.halfBroken : FileTree where
  files := [
    (["m.spz"], Utf8.encode "import a import b fn f() -> i32 { let x = 1 return x }"),
    (["a.spz"], Utf8.encode "fn g() -> i32 { return 1 + }"),
    (["b.spz"], Utf8.encode "fn h() -> i32 { return 1 }")]

theorem Program.nodes_numbered_sample :
    (∃ p next, Program.parse "fn f() -> i32 { let x = 1 return x }" 0 7 = .ok (p, next) ∧
      p.ids = [7, 9, 8, 10] ∧ Numbered 7 next p.ids) ∧
    (∃ p l s', (Loading.loadEntry FileTree.host [] 3 "m.spz").run .halfBroken = (.ok (p, l), s') ∧
      p.ids = [4, 5, 0, 2, 1, 3] ∧ Numbered 0 l.nextId p.ids) := by
  have hparse : ((Program.parse "fn f() -> i32 { let x = 1 return x }" 0 7).toOption.map
      fun r => r.1.ids) = some [7, 9, 8, 10] := by
    decide +kernel
  have hload : ((((Loading.loadEntry FileTree.host [] 3 "m.spz").run .halfBroken).1.toOption).map
      fun r => r.1.ids) = some [4, 5, 0, 2, 1, 3] := by
    decide +kernel
  obtain ⟨⟨p, next⟩, hp, hids⟩ := exists_of_toOption_map hparse
  refine ⟨⟨p, next, hp, hids, (Program.nodes_numbered.1 _ _ _ p next hp).2⟩, ?_⟩
  generalize hrun : (Loading.loadEntry FileTree.host [] 3 "m.spz").run .halfBroken = r at hload
  obtain ⟨r, s'⟩ := r
  obtain ⟨⟨q, l⟩, rfl, hids⟩ := exists_of_toOption_map hload
  exact ⟨q, l, s', rfl, hids, Program.nodes_numbered.2.2 _ _ _ _ _ q l s' hrun⟩

end StructLang
