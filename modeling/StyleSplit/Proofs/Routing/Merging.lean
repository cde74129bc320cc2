import StyleSplit.Proofs.Routing.Issues

/-! The stack machine that goes on with earlier blocks, and the one that makes a new block
at every start: the first does what the second does when blocks of one name are taken
together. -/

namespace StyleSplit

namespace Delimiter

def isFresh (starts : List Start) : Delimiter → Bool
  | opening name _ => starts.all (·.name != name)
  | closing _ _ => true

/-- No block is started while one of its name is open. -/
def apart (starts : List Start) : List Delimiter → Bool
  | [] => true
  | delimiter :: delimiters =>
      isFresh starts delimiter && apart (next starts delimiter) delimiters

end Delimiter

section Ordered

variable {α : Type} {entries : List (Nat × α)}

theorem filter_append_filter_of_le {id : Nat}
    (h : entries.Pairwise fun first second => first.1 ≤ second.1)
    (hle : ∀ entry ∈ entries, id ≤ entry.1) :
    entries.filter (·.1 == id) ++ entries.filter (!·.1 == id) = entries := by
  induction entries with
  | nil => rfl
  | cons entry entries ih =>
      obtain ⟨hfirst, hentries⟩ := List.pairwise_cons.mp h
      obtain ⟨hentry, hrest⟩ := List.forall_mem_cons.mp hle
      by_cases hid : entry.1 = id
      · simpa [hid] using ih hentries hrest
      · have hnone : entries.filter (·.1 == id) = [] := by
          rw [List.filter_eq_nil_iff]
          intro other hother
          have hother := hfirst other hother
          rw [beq_iff_eq]
          omega
        have hall := ih hentries hrest
        rw [hnone, List.nil_append] at hall
        simp [hid, hnone, hall]

theorem flatMap_filter_of_pairwise {ids : List Nat}
    (h : entries.Pairwise fun first second => first.1 ≤ second.1)
    (hids : ids.Pairwise (· < ·)) (hmem : ∀ entry ∈ entries, entry.1 ∈ ids) :
    ids.flatMap (fun id => entries.filter (·.1 == id)) = entries := by
  induction ids generalizing entries with
  | nil =>
      exact (List.eq_nil_iff_forall_not_mem.mpr fun entry hentry =>
        List.not_mem_nil (hmem entry hentry)).symm
  | cons id ids ih =>
      obtain ⟨hfirst, hids⟩ := List.pairwise_cons.mp hids
      have hle : ∀ entry ∈ entries, id ≤ entry.1 := by
        intro entry hentry
        rcases List.mem_cons.mp (hmem entry hentry) with hid | hlater
        · exact Nat.le_of_eq hid.symm
        · exact Nat.le_of_lt (hfirst entry.1 hlater)
      have hlater : ∀ entry ∈ entries.filter (!·.1 == id), entry.1 ∈ ids := by
        intro entry hentry
        obtain ⟨hentry, hne⟩ := List.mem_filter.mp hentry
        rcases List.mem_cons.mp (hmem entry hentry) with hid | hid
        · simp [hid] at hne
        · exact hid
      have hsame : ids.flatMap (fun other => entries.filter (·.1 == other)) =
          ids.flatMap fun other => (entries.filter (!·.1 == id)).filter (·.1 == other) := by
        refine List.flatMap_congr fun other hother => ?_
        have hne := hfirst other hother
        rw [List.filter_filter]
        refine List.filter_congr fun entry _ => ?_
        grind
      rw [List.flatMap_cons, hsame, ih (h.filter _) hids hlater,
        filter_append_filter_of_le h hle]

end Ordered

namespace Nesting

/-- The number of the block that the rules of a block go to when blocks of one name are
taken together, in the order in which their names first come up. -/
def merged (names : List String) : Nat → Nat
  | 0 => 0
  | index + 1 => names[index]?.elim 0 fun name => names.eraseDups.idxOf name + 1

section Merged

variable {names : List String} {name : String} {index : Nat}

@[simp] theorem merged_zero (names : List String) : merged names 0 = 0 := rfl

theorem merged_of_getElem? (h : names[index]? = some name) :
    merged names (index + 1) = names.eraseDups.idxOf name + 1 := by
  rw [merged, h, Option.elim_some]

theorem getElem?_append (h : names[index]? = some name) (later : List String) :
    (names ++ later)[index]? = some name := by
  rw [List.getElem?_append_left (List.getElem?_eq_some_iff.mp h).1, h]

theorem merged_append (h : names[index]? = some name) (later : List String) :
    merged (names ++ later) (index + 1) = merged names (index + 1) := by
  have hmem : name ∈ names.eraseDups := List.mem_eraseDups.mpr (List.mem_of_getElem? h)
  rw [merged_of_getElem? h, merged_of_getElem? (getElem?_append h later),
    List.eraseDups_append, List.idxOf_append_of_mem hmem]

theorem merged_inj {other : Nat} {otherName : String} (h : names[index]? = some name)
    (hother : names[other]? = some otherName) :
    merged names (index + 1) = merged names (other + 1) ↔ name = otherName := by
  have hmem : name ∈ names.eraseDups := List.mem_eraseDups.mpr (List.mem_of_getElem? h)
  rw [merged_of_getElem? h, merged_of_getElem? hother, Nat.add_right_cancel_iff,
    List.idxOf_inj hmem]

end Merged

def Named (nesting : Nesting) : Prop :=
  ∀ level ∈ nesting.stack, ∃ index, level.id = index + 1 ∧
    nesting.names[index]? = some level.name

def Newest (nesting : Nesting) : Prop :=
  ∀ level ∈ nesting.stack, ∀ index, nesting.names[index]? = some level.name →
    index < level.id

/-- The first machine has the names of the second without repeats, and the same blocks
open when those of one name are taken together. -/
structure Merges (appended separated : Nesting) : Prop where
  names : appended.names = separated.names.eraseDups
  stack : appended.stack =
    separated.stack.map fun level => { level with id := merged separated.names level.id }
  named : separated.Named

theorem Named.new : Named {} := fun _ hlevel => by cases hlevel

theorem Newest.new : Newest {} := fun _ hlevel => by cases hlevel

theorem opened_append (nesting : Nesting) (name : String) (openedAt : Span) :
    let names := if name ∈ nesting.names then nesting.names else nesting.names ++ [name]
    nesting.opened .append name openedAt =
      ⟨names, ⟨names.idxOf name + 1, name, openedAt⟩ :: nesting.stack⟩ := by
  intro names
  unfold opened
  cases hindex : nesting.names.idxOf? name with
  | some index =>
      have hmem : name ∈ nesting.names := by
        rw [← List.isSome_idxOf?, hindex]
        rfl
      have hfound : nesting.names.idxOf name = index := by
        rw [List.idxOf_eq_getD_idxOf?, hindex, Option.getD_some]
      simp [names, hmem, hfound]
  | none =>
      have hnew : name ∉ nesting.names := List.idxOf?_eq_none_iff.mp hindex
      simp [names, hnew, List.idxOf_append]

theorem opened_separate (nesting : Nesting) (name : String) (openedAt : Span) :
    nesting.opened .separate name openedAt =
      ⟨nesting.names ++ [name],
        ⟨nesting.names.length + 1, name, openedAt⟩ :: nesting.stack⟩ := rfl

theorem Named.opened {nesting : Nesting} (h : nesting.Named) (name : String)
    (openedAt : Span) : (nesting.opened .separate name openedAt).Named := by
  intro level hlevel
  rcases List.mem_cons.mp hlevel with rfl | hlevel
  · exact ⟨nesting.names.length, rfl, List.getElem?_concat_length⟩
  · obtain ⟨index, hid, hname⟩ := h level hlevel
    exact ⟨index, hid, getElem?_append hname [name]⟩

theorem stack_closed_subset (nesting : Nesting) (name : String) :
    ∀ level ∈ (nesting.closed name).stack, level ∈ nesting.stack := by
  intro level hlevel
  unfold closed at hlevel
  split at hlevel
  · exact hlevel
  · rename_i top stack hstack
    split at hlevel
    · rw [hstack]
      exact List.mem_cons_of_mem top hlevel
    · exact hlevel

theorem Named.closed {nesting : Nesting} (h : nesting.Named) (name : String) :
    (nesting.closed name).Named := by
  intro level hlevel
  rw [names_closed]
  exact h level (nesting.stack_closed_subset name level hlevel)

theorem Named.step {nesting : Nesting} (h : nesting.Named) (rule : Rule) :
    (nesting.step .separate rule).Named := by
  unfold Nesting.step
  split
  · exact h.opened _ _
  · exact h.closed _
  · exact h

theorem Named.top {nesting : Nesting} (h : nesting.Named) :
    nesting.top = 0 ∨
      ∃ index name, nesting.top = index + 1 ∧ nesting.names[index]? = some name := by
  unfold Nesting.top
  cases hstack : nesting.stack with
  | nil => exact .inl rfl
  | cons level stack =>
      obtain ⟨index, hid, hname⟩ := h level (by simp [hstack])
      exact .inr ⟨index, level.name, hid, hname⟩

theorem Named.merged_top {nesting : Nesting} (h : nesting.Named) (later : List String) :
    merged (nesting.names ++ later) nesting.top = merged nesting.names nesting.top := by
  rcases h.top with htop | ⟨index, name, htop, hname⟩
  · rw [htop, merged_zero, merged_zero]
  · rw [htop, merged_append hname]

namespace Merges

variable {appended separated : Nesting}

theorem new : Merges {} {} :=
  ⟨rfl, rfl, .new⟩

theorem top_eq (h : appended.Merges separated) :
    appended.top = merged separated.names separated.top := by
  rw [Nesting.top, h.stack, Nesting.top]
  cases separated.stack <;> rfl

theorem opened (h : appended.Merges separated) (name : String) (openedAt : Span) :
    (appended.opened .append name openedAt).Merges
      (separated.opened .separate name openedAt) := by
  have hnames : (if name ∈ appended.names then appended.names else appended.names ++ [name]) =
      (separated.names ++ [name]).eraseDups := by
    rw [eraseDups_concat, h.names]
    simp only [List.mem_eraseDups]
  have hlast : (separated.names ++ [name])[separated.names.length]? = some name :=
    List.getElem?_concat_length
  rw [opened_append, hnames, opened_separate]
  refine ⟨rfl, ?_, h.named.opened name openedAt⟩
  rw [h.stack, List.map_cons, merged_of_getElem? hlast]
  refine congrArg (_ :: ·) (List.map_congr_left fun level hlevel => ?_)
  obtain ⟨index, hid, hname⟩ := h.named level hlevel
  rw [hid, merged_append hname]

theorem closed (h : appended.Merges separated) (name : String) :
    (appended.closed name).Merges (separated.closed name) := by
  refine ⟨by simp [h.names], ?_, h.named.closed name⟩
  unfold Nesting.closed
  rw [h.stack]
  cases hstack : separated.stack with
  | nil => simp [h.stack, hstack]
  | cons level stack =>
      rw [List.map_cons]
      dsimp only
      split
      · rfl
      · rw [h.stack, hstack, List.map_cons]

theorem step (h : appended.Merges separated) (rule : Rule) :
    (appended.step .append rule).Merges (separated.step .separate rule) := by
  unfold Nesting.step
  split
  · exact h.opened _ _
  · exact h.closed _
  · exact h

/-- Going on with earlier blocks routes each rule to the block of the name of the one that
it goes to when every start makes a new block. -/
theorem route_eq (h : appended.Merges separated) (rules : List Rule) :
    route .append appended rules =
      (route .separate separated rules).map fun entry =>
        (merged (separated.run .separate rules).names entry.1, entry.2) := by
  induction rules generalizing appended separated with
  | nil => rfl
  | cons rule rules ih =>
      rw [route, route, run_cons, ih (h.step rule)]
      split
      · rename_i hcontent
        have hsame : separated.step .separate rule = separated :=
          separated.step_of_isPassive .separate (Rule.isPassive_of_isContent hcontent)
        rw [List.map_cons, hsame, names_run_separate, h.named.merged_top, h.top_eq]
      · rfl

end Merges

theorem Newest.opened {nesting : Nesting} (h : nesting.Newest) {name : String}
    (hfresh : ∀ level ∈ nesting.stack, level.name ≠ name) (openedAt : Span) :
    (nesting.opened .separate name openedAt).Newest := by
  intro level hlevel index hindex
  rw [opened_separate, List.getElem?_append] at hindex
  rcases List.mem_cons.mp hlevel with rfl | hlevel
  · split at hindex
    · dsimp only
      omega
    · have hlt := (List.getElem?_eq_some_iff.mp hindex).1
      rw [List.length_singleton] at hlt
      dsimp only
      omega
  · split at hindex
    · exact h level hlevel index hindex
    · have hname := List.mem_singleton.mp (List.mem_of_getElem? hindex)
      exact absurd hname (hfresh level hlevel)

theorem Newest.closed {nesting : Nesting} (h : nesting.Newest) (name : String) :
    (nesting.closed name).Newest := by
  intro level hlevel
  rw [names_closed]
  exact h level (nesting.stack_closed_subset name level hlevel)

theorem Newest.step {nesting : Nesting} (h : nesting.Newest) {rule : Rule}
    (hfresh : rule.delimiter?.all (Delimiter.isFresh nesting.starts) = true) :
    (nesting.step .separate rule).Newest := by
  unfold Rule.delimiter? at hfresh
  unfold Nesting.step
  cases hclass : rule.commentClass? with
  | none => exact h
  | some commentClass =>
      cases commentClass with
      | opening name =>
          rw [hclass] at hfresh
          apply h.opened
          intro level hlevel
          have hstart : (⟨level.name, level.openedAt⟩ : Delimiter.Start) ∈ nesting.starts :=
            List.mem_map_of_mem hlevel
          simpa using List.all_eq_true.mp hfresh _ hstart
      | closing name => exact h.closed name
      | stalePragma => exact h
      | content => exact h

theorem Named.of_mem_route {nesting : Nesting} (h : nesting.Named) {rules : List Rule}
    {entry : Nat × Rule} (hentry : entry ∈ route .separate nesting rules) :
    entry.1 = 0 ∨ ∃ index name, entry.1 = index + 1 ∧
      (nesting.run .separate rules).names[index]? = some name := by
  induction rules generalizing nesting with
  | nil => cases hentry
  | cons rule rules ih =>
      rw [route_cons] at hentry
      rcases List.mem_append.mp hentry with hfirst | hrest
      · rw [nesting.eq_of_mem_route_singleton hfirst, names_run_separate]
        rcases h.top with htop | ⟨index, name, htop, hname⟩
        · exact .inl htop
        · exact .inr ⟨index, name, htop, getElem?_append hname _⟩
      · exact ih (h.step rule) hrest

theorem exists_of_mem_route (nesting : Nesting) {rules : List Rule} {entry : Nat × Rule}
    (h : entry ∈ route .separate nesting rules) :
    entry.1 = 0 ∨ (∃ level ∈ nesting.stack, level.id = entry.1) ∨
      nesting.names.length < entry.1 := by
  induction rules generalizing nesting with
  | nil => cases h
  | cons rule rules ih =>
      rw [route_cons] at h
      rcases List.mem_append.mp h with hfirst | hrest
      · rw [nesting.eq_of_mem_route_singleton hfirst, top]
        cases hstack : nesting.stack with
        | nil => exact .inl rfl
        | cons level stack => exact .inr (.inl ⟨level, List.mem_cons_self, rfl⟩)
      · have hle := nesting.length_names_le_step .separate rule
        rcases ih (nesting.step .separate rule) hrest with hzero | ⟨level, hlevel, hid⟩ | hlater
        · exact .inl hzero
        · unfold step at hlevel
          split at hlevel
          · rcases List.mem_cons.mp hlevel with rfl | hlevel
            · dsimp only at hid
              exact .inr (.inr (by omega))
            · exact .inr (.inl ⟨level, hlevel, hid⟩)
          · exact .inr (.inl ⟨level, nesting.stack_closed_subset _ level hlevel, hid⟩)
          · exact .inr (.inl ⟨level, hlevel, hid⟩)
        · exact .inr (.inr (Nat.lt_of_le_of_lt hle hlater))

theorem Newest.top_le {nesting : Nesting} (h : nesting.Newest) (hnamed : nesting.Named)
    {rules : List Rule} {entry : Nat × Rule} (hentry : entry ∈ route .separate nesting rules)
    (later : List String)
    (hsame : merged (nesting.names ++ later) nesting.top =
      merged (nesting.names ++ later) entry.1) : nesting.top ≤ entry.1 := by
  rcases hnamed.top with htop | ⟨index, name, htop, hname⟩
  · omega
  · have hfinal := getElem?_append hname later
    have hlt := (List.getElem?_eq_some_iff.mp hname).1
    rw [htop] at hsame ⊢
    rcases exists_of_mem_route nesting hentry with hzero | ⟨level, hlevel, hid⟩ | hlater
    · rw [hzero, merged_zero, merged_of_getElem? hfinal] at hsame
      cases hsame
    · obtain ⟨other, hother, hlevelName⟩ := hnamed level hlevel
      rw [← hid, hother, merged_inj hfinal (getElem?_append hlevelName later)] at hsame
      subst hsame
      have hbefore := h level hlevel index hname
      omega
    · omega

/-- Where no block is started inside one of its name, the rules of each name go to its
blocks in the order in which these are made. -/
theorem pairwise_route {nesting : Nesting} (h : nesting.Newest) (hnamed : nesting.Named)
    {rules : List Rule}
    (hapart : Delimiter.apart nesting.starts (rules.filterMap Rule.delimiter?) = true) :
    (route .separate nesting rules).Pairwise fun first second =>
      merged (nesting.run .separate rules).names first.1 =
          merged (nesting.run .separate rules).names second.1 →
        first.1 ≤ second.1 := by
  induction rules generalizing nesting with
  | nil => exact List.Pairwise.nil
  | cons rule rules ih =>
      have hparts : rule.delimiter?.all (Delimiter.isFresh nesting.starts) = true ∧
          Delimiter.apart (nesting.step .separate rule).starts
            (rules.filterMap Rule.delimiter?) = true := by
        rw [filterMap_delimiter?_cons] at hapart
        rw [starts_step]
        cases hdelimiter : rule.delimiter? with
        | none =>
            rw [hdelimiter] at hapart
            exact ⟨rfl, hapart⟩
        | some delimiter =>
            rw [hdelimiter] at hapart
            exact Bool.and_eq_true_iff.mp hapart
      have hrest := ih (h.step hparts.1) (hnamed.step rule) hparts.2
      rw [route, run_cons]
      split
      · rename_i hcontent
        have hsame : nesting.step .separate rule = nesting :=
          nesting.step_of_isPassive .separate (Rule.isPassive_of_isContent hcontent)
        rw [hsame] at hrest ⊢
        rw [List.pairwise_cons]
        refine ⟨fun entry hentry => ?_, hrest⟩
        rw [names_run_separate]
        exact h.top_le hnamed hentry _
      · exact hrest

def idsOf (names : List String) (name : String) : List Nat :=
  ((names.zipIdx 1).filter (·.1 == name)).map (·.2)

theorem mem_idsOf {names : List String} {name : String} {id : Nat} :
    id ∈ idsOf names name ↔ ∃ index, id = index + 1 ∧ names[index]? = some name := by
  have hmem : id ∈ idsOf names name ↔ (name, id) ∈ names.zipIdx 1 := by
    simp [idsOf, and_comm]
  rw [hmem, List.mk_mem_zipIdx_iff_le_and_getElem?_sub]
  constructor
  · rintro ⟨hpos, hname⟩
    exact ⟨id - 1, by omega, hname⟩
  · rintro ⟨index, rfl, hname⟩
    exact ⟨Nat.le_add_left 1 index, hname⟩

theorem pairwise_idsOf (names : List String) (name : String) :
    (idsOf names name).Pairwise (· < ·) := by
  have hsublist : (idsOf names name).Sublist ((names.zipIdx 1).map (·.2)) :=
    List.filter_sublist.map _
  rw [List.zipIdx_map_snd] at hsublist
  exact (List.pairwise_lt_range' 1).sublist hsublist

theorem merged_eq_iff {names : List String} {name : String} {index : Nat}
    (hname : names.eraseDups[index]? = some name) (id : Nat) :
    merged names id = index + 1 ↔ id ∈ idsOf names name := by
  obtain ⟨hlt, hget⟩ := List.getElem?_eq_some_iff.mp hname
  have hplace : names.eraseDups.idxOf name = index := by
    rw [← hget, (nodup_eraseDups names).idxOf_getElem index hlt]
  rw [mem_idsOf]
  constructor
  · intro hmerged
    cases id with
    | zero => cases hmerged
    | succ other =>
        cases hother : names[other]? with
        | none => simp [merged, hother] at hmerged
        | some otherName =>
            rw [merged_of_getElem? hother, ← hplace, Nat.add_right_cancel_iff] at hmerged
            have hmem := List.mem_eraseDups.mpr (List.mem_of_getElem? hother)
            rw [(List.idxOf_inj hmem).mp hmerged] at hother
            exact ⟨other, rfl, hother⟩
  · rintro ⟨other, rfl, hother⟩
    rw [merged_of_getElem? hother, hplace]

theorem route_append (rules : List Rule) :
    route .append {} rules =
      (route .separate {} rules).map fun entry =>
        (merged (rules.filterMap Rule.openingName?) entry.1, entry.2) := by
  rw [Merges.new.route_eq, names_run]
  rfl

theorem of_mem_route {rules : List Rule} {entry : Nat × Rule}
    (hentry : entry ∈ route .separate {} rules) :
    entry.1 = 0 ∨ ∃ index name, entry.1 = index + 1 ∧
      (rules.filterMap Rule.openingName?)[index]? = some name := by
  have hroute := Named.new.of_mem_route hentry
  rwa [names_run] at hroute

theorem routedTo_append_zero (rules : List Rule) :
    routedTo .append rules 0 = routedTo .separate rules 0 := by
  rw [routedTo, route_append, List.filter_map, List.map_map, routedTo]
  refine congrArg (List.map _) (List.filter_congr fun entry hentry => ?_)
  rcases of_mem_route hentry with hzero | ⟨index, name, hid, hname⟩
  · simp [hzero]
  · simp [hid, merged_of_getElem? hname]

/-- Where no block is started inside one of its name, a block that is gone on with gets
the rules that its separate blocks get, one block after the other. -/
theorem routedTo_append {rules : List Rule} {name : String} {index : Nat}
    (hapart : Delimiter.apart [] (rules.filterMap Rule.delimiter?) = true)
    (hname : (rules.filterMap Rule.openingName?).eraseDups[index]? = some name) :
    routedTo .append rules (index + 1) =
      (idsOf (rules.filterMap Rule.openingName?) name).flatMap (routedTo .separate rules) := by
  let starts := rules.filterMap Rule.openingName?
  let shared := (route .separate {} rules).filter (merged starts ·.1 == index + 1)
  have hmerged : ∀ entry ∈ shared, merged starts entry.1 = index + 1 :=
    fun entry hentry => beq_iff_eq.mp (List.mem_filter.mp hentry).2
  have hsorted : shared.Pairwise fun first second => first.1 ≤ second.1 := by
    have hordered := pairwise_route .new .new hapart
    rw [names_run] at hordered
    refine (hordered.filter _).imp_of_mem fun {first second} hfirst hsecond hle => hle ?_
    exact (hmerged first hfirst).trans (hmerged second hsecond).symm
  have hjoined := flatMap_filter_of_pairwise hsorted (pairwise_idsOf starts name)
    fun entry hentry => (merged_eq_iff hname entry.1).mp (hmerged entry hentry)
  have happended : routedTo .append rules (index + 1) = shared.map (·.2) := by
    rw [routedTo, route_append, List.filter_map, List.map_map]
    rfl
  rw [happended, ← hjoined, List.map_flatMap]
  refine List.flatMap_congr fun id hid => ?_
  have hall : shared.filter (·.1 == id) = (route .separate {} rules).filter (·.1 == id) := by
    rw [List.filter_filter]
    refine List.filter_congr fun entry _ => ?_
    by_cases hentry : entry.1 = id
    · rw [hentry, (merged_eq_iff hname id).mpr hid]
      simp
    · simp [hentry]
  rw [hall, routedTo]

end Nesting

end StyleSplit
