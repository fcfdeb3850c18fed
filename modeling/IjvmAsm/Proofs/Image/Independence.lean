import IjvmAsm.Proofs.Assembly.Arity
import IjvmAsm.Proofs.Assembly.Bodies
import IjvmAsm.Proofs.Image.Jumps
import IjvmAsm.Proofs.Program.Relinking

/-!
# Methods do not depend on each other

Changing the body of one method leaves the bytes of all others as they are: references are settled
inside a method or by an index into the pool, and the pool lists the same names. Only the places of
the methods behind it move, by as much as the method has grown.
-/

namespace IjvmAsm

namespace Method

/-- A method without line numbers and place. -/
def bare (m : Method) : Method := { m.unlined with offset := 0 }

variable {m m' : Method}

theorem encoding_unlined (m : Method) : m.unlined.encoding = m.encoding := by
  have hinstruction : ∀ i : Instruction, i.unlined.encoding = i.encoding := fun _ => rfl
  simp only [encoding, unlined, Array.toList_map, List.flatMap_map, hinstruction]

theorem segmentBytes_bare (m : Method) : m.bare.segmentBytes = m.segmentBytes := by
  have hencoding : m.bare.encoding = m.encoding := m.encoding_unlined
  have hheaded : m.bare.headedEncoding = m.headedEncoding := by
    rw [headedEncoding, hencoding]
    rfl
  rw [segmentBytes, hencoding, hheaded]
  rfl

theorem segmentSize_bare (m : Method) : m.bare.segmentSize = m.segmentSize := rfl

end Method

/-- Lists that agree in what is read of their items do so at each place. -/
theorem eq_of_map_eq_map {α β : Type} {f : α → β} {xs ys : List α} (h : xs.map f = ys.map f) {j : Nat}
    {x y : α} (hx : xs[j]? = some x) (hy : ys[j]? = some y) : f x = f y := by
  have hat := congrArg (·[j]?) h
  simpa only [List.getElem?_map, hx, hy, Option.map_some, Option.some.injEq] using hat

/-- A sum up to a place behind one summand, which is replaced by another. -/
theorem sum_take_replaced {xs zs : List Nat} {a b j : Nat} (h : xs.length < j) :
    ((xs ++ b :: zs).take j).sum + a = ((xs ++ a :: zs).take j).sum + b := by
  obtain ⟨n, hn⟩ : ∃ n, j - xs.length = n + 1 := ⟨j - xs.length - 1, by omega⟩
  simp only [List.take_append, hn, List.take_succ_cons, List.sum_append, List.sum_cons]
  omega

namespace Scope

/-- The pool is only searched for names. -/
theorem resolveMethod_congr {s s' : Scope} {pool pool' : Array Constant} (hpool : s.pool = some pool)
    (hpool' : s'.pool = some pool')
    (hnames : pool.map Constant.name = pool'.map Constant.name) (hmethod : s.method = s'.method) :
    s.resolveMethod.1 = s'.resolveMethod.1 := by
  have hindex : ∀ name, pool.findIdx? (fun c => c.name == name) =
      pool'.findIdx? fun c => c.name == name := by
    intro name
    have hmap : ∀ pool : Array Constant, (pool.map Constant.name).findIdx? (· == name) =
        pool.findIdx? fun c => c.name == name := fun pool => Array.findIdx?_map
    rw [← hmap, hnames, hmap]
  have hargument : ∀ i a, (s.resolve i a).1 = (s'.resolve i a).1 := by
    intro i a
    match a with
    | .resolved value => rfl
    | .pending (.label name) =>
      simp only [resolve, distance, hmethod]
      cases s'.method.findLabel? name with
      | none => rfl
      | some l =>
        dsimp only
        split_ifs <;> rfl
    | .pending (.method name) =>
      simp only [resolve, hpool, hpool', methodIndex, hindex]
      cases pool'.findIdx? fun c => c.name == name <;> rfl
  simp only [resolveMethod, resolveInstruction, hmethod, Array.map_map, Function.comp_def,
    List.map_map, hargument]

end Scope

namespace Program

variable {file : String} {p q : Program} {entry : Method} {rest : List Method}

/-- A method without a place, its references resolved against the pool. -/
def settledIn (file : String) (pool : Array Constant) (m : Method) : Method :=
  (Scope.resolveMethod ⟨file, some pool, { m with offset := 0 }⟩).1

/-- The methods of a linked program without their places. -/
theorem map_unplaced_link (hlink : (p.link file).2.errors = 0) :
    (p.link file).1.methods.toList.map (fun m => { m with offset := 0 }) =
      p.methods.toList.map (settledIn file (p.link file).1.constants) := by
  obtain ⟨entry, rest, h, hentry, hcomplete⟩ := exists_complete_of_errors hlink
  obtain ⟨hpool, hmethods⟩ := link_of_complete h hentry hcomplete
  rw [hmethods, hpool, h, List.map_map, placed, List.map_cons, List.map_cons,
    map_placedFrom fun _ _ => rfl]
  rfl

/-- The names of a pool and what they stand for. -/
theorem map_name_link (hlink : (p.link file).2.errors = 0) :
    (p.link file).1.constants.toList.map (fun c => (c.name, c.origin)) =
      p.declared.map (fun c => (c.name, c.origin)) ++
        (p.methods.toList.map Method.name).tail.map fun name => (name, .method) := by
  obtain ⟨entry, rest, h, hentry, hcomplete⟩ := exists_complete_of_errors hlink
  have hnames := map_eq_map_of_forall₂ (fun (m m' : Method) (hm : m.Alike m') => hm.name.symm)
    (forall₂_alike_link file p)
  rw [pool_link_of_complete h hentry hcomplete, hnames, others, List.map_append, List.drop_one,
    ← List.map_tail, List.map_map, List.map_map]
  rfl

theorem settledIn_congr {pool pool' : Array Constant}
    (hnames : pool.map Constant.name = pool'.map Constant.name) :
    settledIn file pool = settledIn file pool' :=
  funext fun _ => Scope.resolveMethod_congr rfl rfl hnames rfl

theorem unlined_settledIn (file : String) (pool : Array Constant) (m : Method) :
    (settledIn file pool m).unlined = settledIn file pool m.unlined := by
  have hnames : (pool.map Constant.unlined).map Constant.name = pool.map Constant.name := by
    rw [Array.map_map]
    rfl
  have hunlined := (Scope.resolveMethod_unlined ⟨file, some pool, { m with offset := 0 }⟩).1
  exact hunlined.symm.trans (congrFun (settledIn_congr hnames) m.unlined)

/-- The methods of a linked program without line numbers and places. -/
theorem map_bare_link (hlink : (p.link file).2.errors = 0) :
    (p.link file).1.methods.toList.map Method.bare =
      (p.methods.toList.map Method.unlined).map (settledIn file (p.link file).1.constants) := by
  have hmap := congrArg (List.map Method.unlined) (map_unplaced_link hlink)
  simp only [List.map_map, Function.comp_def, unlined_settledIn] at hmap ⊢
  exact hmap

def segment (p : Program) (m : Method) (bytes : Bytes) : Bytes :=
  (bytes.drop (p.head.length + m.offset)).take m.segmentSize

variable {others : List Method} {m : Method} {bytes : Bytes} {withSymbols : Bool}

/-- In an image a method stands where its offset says. -/
theorem Shape.segment_eq (h : Shape p entry others) {j : Nat} (hm : p.methods[j]? = some m)
    (hlength : ∀ m ∈ p.methods.toList, m.encoding.length = m.size)
    (hrender : (p.render false withSymbols).result = .ok bytes) :
    p.segment m bytes = m.segmentBytes := by
  obtain ⟨front, back, htext, hfront⟩ :=
    exists_text_eq_segment (text_eq_flatMap h.methods h.isEntry h.notEntry) hlength hm
  rw [← h.offset_eq hm] at hfront
  have hbytes := (render_eq_ok_iff.1 hrender).2
  rw [htext, List.append_assoc, List.append_assoc, ← List.append_assoc p.head] at hbytes
  rw [← Array.getElem?_toList] at hm
  have hsize := Method.length_segmentBytes (hlength m (List.mem_of_getElem? hm))
  rw [segment, hbytes, List.drop_left' (by rw [List.length_append, hfront]),
    List.take_left' hsize]

end Program

namespace Assembly

open Program

variable {file : String} {p q : Program} {n : Nat}

theorem DifferInMethod.map_name (h : DifferInMethod p q n) :
    p.methods.toList.map Method.name = q.methods.toList.map Method.name := by
  have hname : ∀ ms : List Method, (ms.map Method.unlined).map Method.name = ms.map Method.name :=
    fun ms => List.map_map
  obtain ⟨left, right, before, after, name, _, _, _, _⟩ := h
  rename_i ms ns rest rest' m m' _ _ _ _
  rw [left, right, List.map_append, List.map_append, List.map_cons, List.map_cons, ← hname ms,
    before, hname, ← hname rest, after, hname, name]

theorem DifferInMethod.map_declared (h : DifferInMethod p q n) :
    p.declared.map Constant.unlined = q.declared.map Constant.unlined := by
  have hfilter : ∀ cs : List Constant, (cs.filter fun c => c.origin == .declared).map
      Constant.unlined = (cs.map Constant.unlined).filter fun c => c.origin == .declared := by
    intro cs
    rw [List.filter_map]
    rfl
  obtain ⟨_, _, _, _, _, _, _, _, constants⟩ := h
  rw [declared, declared, hfilter, hfilter, ← Array.toList_map, constants, Array.toList_map]

/-- Programs that differ in one method have the same names in their pools. -/
theorem DifferInMethod.map_name_link (h : DifferInMethod p q n) (hp : (p.link file).2.errors = 0)
    (hq : (q.link file).2.errors = 0) :
    (p.link file).1.constants.toList.map (fun c => (c.name, c.origin)) =
      (q.link file).1.constants.toList.map fun c => (c.name, c.origin) := by
  have hdeclared := congrArg (List.map fun c : Constant => (c.name, c.origin)) h.map_declared
  rw [List.map_map, List.map_map] at hdeclared
  rw [Program.map_name_link hp, Program.map_name_link hq, h.map_name]
  exact congrArg (· ++ _) hdeclared

/-- The methods of two programs that differ in one of them, and have places. -/
structure Aligned (p q : Program) (us us' vs vs' : List Method) (u u' : Method) : Prop where
  left : p.methods.toList = us ++ u :: vs
  right : q.methods.toList = us' ++ u' :: vs'
  before : us.map Method.bare = us'.map Method.bare
  after : vs.map Method.bare = vs'.map Method.bare
  isEntry : u'.isEntry = u.isEntry

namespace Aligned

variable {us us' vs vs' : List Method} {u u' m m' : Method} {j : Nat}

theorem symm (h : Aligned p q us us' vs vs' u u') : Aligned q p us' us vs' vs u' u :=
  ⟨h.right, h.left, h.before.symm, h.after.symm, h.isEntry.symm⟩

theorem getElem?_left (h : Aligned p q us us' vs vs' u u') : p.methods[us.length]? = some u := by
  rw [← Array.getElem?_toList, h.left, List.getElem?_append_right (Nat.le_refl _), Nat.sub_self]
  rfl

theorem length_eq (h : Aligned p q us us' vs vs' u u') : us'.length = us.length := by
  have hlength := congrArg List.length h.before
  rwa [List.length_map, List.length_map, eq_comm] at hlength

theorem size_eq (h : Aligned p q us us' vs vs' u u') : p.methods.size = q.methods.size := by
  have hlength := congrArg List.length h.after
  rw [List.length_map, List.length_map] at hlength
  rw [← Array.length_toList, ← Array.length_toList, h.left, h.right, List.length_append,
    List.length_append, List.length_cons, List.length_cons, h.length_eq, hlength]

theorem bare_eq (h : Aligned p q us us' vs vs' u u') (hj : j ≠ us.length)
    (hm : p.methods[j]? = some m) (hm' : q.methods[j]? = some m') : m.bare = m'.bare := by
  rw [← Array.getElem?_toList, h.left, List.getElem?_append] at hm
  rw [← Array.getElem?_toList, h.right, List.getElem?_append, h.length_eq] at hm'
  split_ifs at hm hm' with hlt
  · exact eq_of_map_eq_map h.before hm hm'
  · obtain ⟨n, hn⟩ : ∃ n, j - us.length = n + 1 := ⟨j - us.length - 1, by omega⟩
    rw [hn, List.getElem?_cons_succ] at hm hm'
    exact eq_of_map_eq_map h.after hm hm'

/-- The sizes of the methods, with and without headers. -/
theorem segmentSizes (h : Aligned p q us us' vs vs' u u') :
    ∃ xs zs, xs.length = us.length ∧
      p.methods.toList.map Method.segmentSize = xs ++ u.segmentSize :: zs ∧
      q.methods.toList.map Method.segmentSize = xs ++ u'.segmentSize :: zs ∧
      u'.segmentSize + u.size = u.segmentSize + u'.size := by
  have hsizes : ∀ {ms ms' : List Method}, ms.map Method.bare = ms'.map Method.bare →
      ms'.map Method.segmentSize = ms.map Method.segmentSize := by
    intro ms ms' hbare
    have hmap := congrArg (List.map Method.segmentSize) hbare
    simp only [List.map_map, Function.comp_def, Method.segmentSize_bare] at hmap
    exact hmap.symm
  refine ⟨us.map Method.segmentSize, vs.map Method.segmentSize, List.length_map _, ?_, ?_, ?_⟩
  · rw [h.left, List.map_append, List.map_cons]
  · rw [h.right, List.map_append, List.map_cons, hsizes h.before, hsizes h.after]
  · rw [Method.segmentSize, Method.segmentSize, h.isEntry]
    split_ifs <;> omega

/-- Methods behind the one that differs move by as much as that has grown, and no others do. -/
theorem offset_eq (h : Aligned p q us us' vs vs' u u') {entry entry' : Method}
    {others others' : List Method} (hp : Shape p entry others) (hq : Shape q entry' others')
    (hm : p.methods[j]? = some m) (hm' : q.methods[j]? = some m') :
    (j ≤ us.length → m'.offset = m.offset) ∧
      (us.length < j → m'.offset + u.size = m.offset + u'.size) := by
  obtain ⟨xs, zs, hlength, hleft, hright, hsize⟩ := h.segmentSizes
  rw [hp.offset_eq hm, hq.offset_eq hm', List.map_take, List.map_take, hleft, hright, ← hlength]
  constructor
  · intro hle
    rw [List.take_append_of_le_length hle, List.take_append_of_le_length hle]
  · intro hlt
    have hsum := @sum_take_replaced xs zs u.segmentSize u'.segmentSize j hlt
    omega

end Aligned

/-- A linked program with one of its methods, without line numbers and places. -/
theorem exists_split_link {ms rest : List Method} {m : Method} (h : p.methods.toList = ms ++ m :: rest)
    (hp : (p.link file).2.errors = 0) :
    ∃ us u vs, (p.link file).1.methods.toList = us ++ u :: vs ∧ m.Alike u ∧
      us.map Method.bare =
        (ms.map Method.unlined).map (settledIn file (p.link file).1.constants) ∧
      vs.map Method.bare =
        (rest.map Method.unlined).map (settledIn file (p.link file).1.constants) := by
  have halike := forall₂_alike_link file p
  have hbare := Program.map_bare_link hp
  rw [h] at halike hbare
  obtain ⟨us, tail, hsplit, hfront, htail⟩ := exists_append_of_forall₂ halike
  obtain ⟨u, vs, hu, _, rfl⟩ := List.forall₂_cons_left_iff.1 htail
  rw [hsplit, List.map_append, List.map_append, List.map_append] at hbare
  obtain ⟨hfirst, hlast⟩ := List.append_inj hbare (by
    rw [List.length_map, List.length_map, List.length_map, hfront.length_eq])
  exact ⟨us, u, vs, hsplit, hu, hfirst, (List.cons.inj hlast).2⟩

/-- They have no other method that is linked differently. -/
theorem DifferInMethod.link (h : DifferInMethod p q n) (hp : (p.link file).2.errors = 0)
    (hq : (q.link file).2.errors = 0) :
    ∃ us us' vs vs' u u', Aligned (p.link file).1 (q.link file).1 us us' vs vs' u u' ∧
      u.line = n ∧ u'.line = n ∧ u'.name = u.name := by
  have hnames : (p.link file).1.constants.map Constant.name =
      (q.link file).1.constants.map Constant.name := by
    have hpairs := congrArg (List.map Prod.fst) (h.map_name_link hp hq)
    rw [List.map_map, List.map_map] at hpairs
    exact Array.toList_inj.1 (by rw [Array.toList_map, Array.toList_map]; exact hpairs)
  obtain ⟨left, right, before, after, name, isEntry, line, line', _⟩ := h
  obtain ⟨us, u, vs, hleft, halike, hus, hvs⟩ := exists_split_link left hp
  obtain ⟨us', u', vs', hright, halike', hus', hvs'⟩ := exists_split_link right hq
  refine ⟨us, us', vs, vs', u, u', ⟨hleft, hright, ?_, ?_, ?_⟩, ?_, ?_, ?_⟩
  · rw [hus, hus', before, settledIn_congr hnames]
  · rw [hvs, hvs', after, settledIn_congr hnames]
  · rw [halike.isEntry, halike'.isEntry, isEntry]
  · rw [halike.line, line]
  · rw [halike'.line, line']
  · rw [halike.name, halike'.name, name]

/-- What a change in the body of the `k`-th method leaves as it is in a program and its image. -/
structure Unaffected (k : Nat) (edited edited' : Method) (p q : Program) (bytes bytes' : Bytes) :
    Prop where
  left : p.methods[k]? = some edited
  right : q.methods[k]? = some edited'
  count : p.methods.size = q.methods.size
  names : p.constants.toList.map (fun c => (c.name, c.origin)) =
    q.constants.toList.map fun c => (c.name, c.origin)
  declared : p.declared.map Constant.value = q.declared.map Constant.value
  others : ∀ (j : Nat) (m m' : Method), j ≠ k → p.methods[j]? = some m → q.methods[j]? = some m' →
    m'.name = m.name ∧ m'.parameterCount = m.parameterCount ∧ m'.localCount = m.localCount ∧
      q.segment m' bytes' = p.segment m bytes
  offsets : ∀ (j : Nat) (m m' : Method), p.methods[j]? = some m → q.methods[j]? = some m' →
    (j ≤ k → m'.offset = m.offset) ∧ (k < j → m'.offset + edited.size = m.offset + edited'.size)
  constants : ∀ (i : Nat) (c c' : Constant), p.constants[i]? = some c → q.constants[i]? = some c' →
    c.origin = .method → ∃ j m, p.methods[j]? = some m ∧ c.name = m.name ∧
      (j ≤ k → c'.value = c.value) ∧
      (k < j → c'.value - c.value = Int32.ofNat edited'.size - Int32.ofNat edited.size)

/-- The constant of a method that linking has placed. -/
theorem exists_method_of_constant (hlink : (p.link file).2.errors = 0) {i : Nat} {c : Constant}
    (hc : (p.link file).1.constants[i]? = some c) (horigin : c.origin = .method) :
    ∃ j m, (p.link file).1.methods[j]? = some m ∧ i + 1 = p.declared.length + j ∧ c = m.constant := by
  obtain ⟨entry, rest, h, hentry, hcomplete⟩ := exists_complete_of_errors hlink
  rw [← Array.getElem?_toList, pool_link_of_complete h hentry hcomplete, List.getElem?_append] at hc
  split_ifs at hc with hlt
  · have hdeclared := (List.mem_filter.1 (List.mem_of_getElem? hc)).2
    rw [horigin] at hdeclared
    cases hdeclared
  · rw [List.getElem?_map, Program.others, List.getElem?_drop] at hc
    obtain ⟨m, hm, rfl⟩ := Option.map_eq_some_iff.1 hc
    exact ⟨_, m, Array.getElem?_toList ▸ hm, by omega, rfl⟩

variable {s : Setup} {source source' : Bytes} {bytes bytes' : Bytes} {withSymbols : Bool}

/-- Two sources without errors that differ in the body of one method. -/
theorem exists_unaffected_of_run (hset : s.set = .standard)
    (hdiffer : DifferInBody ((Source.Lines.ofBytes source).lines.map Source.Line.text)
      ((Source.Lines.ofBytes source').lines.map Source.Line.text) n)
    (hrun : (run s source).result = .ok p) (hrun' : (run s source').result = .ok q)
    (herrors : (run s source).errors = 0) (herrors' : (run s source').errors = 0)
    (hrender : (p.render false withSymbols).result = .ok bytes)
    (hrender' : (q.render false withSymbols).result = .ok bytes') :
    ∃ k edited edited', edited.line = n ∧ edited'.line = n ∧ edited'.name = edited.name ∧
      Unaffected k edited edited' p q bytes bytes' := by
  have hassembled := assembled_of_run hrun
  have hassembled' := assembled_of_run hrun'
  have hregular : s.Regular := Setup.regular_of_plain (hset ▸ InstructionSet.plain_standard)
  have hlength := hassembled.length_encoding (hassembled.hasArity hregular)
  have hlength' := hassembled'.length_encoding (hassembled'.hasArity hregular)
  obtain ⟨entry, others, hshape⟩ := hassembled.exists_shape (flawless_of_run hrun herrors)
  obtain ⟨entry', others', hshape'⟩ := hassembled'.exists_shape (flawless_of_run hrun' herrors')
  obtain ⟨a, hread, _, rfl, hcount⟩ := exists_read_of_run hrun
  obtain ⟨b, hread', _, rfl, hcount'⟩ := exists_read_of_run hrun'
  have hdiffers := differInMethod_of_readLines (hset ▸ undotted_standard) hdiffer hread hread'
    (by omega) (by omega)
  have hlink : (a.program.link s.file).2.errors = 0 := by omega
  have hlink' : (b.program.link s.file).2.errors = 0 := by omega
  obtain ⟨us, us', vs, vs', u, u', haligned, hline, hline', hname⟩ := hdiffers.link hlink hlink'
  have hdeclared := hdiffers.map_declared
  refine ⟨us.length, u, u', hline, hline', hname, haligned.getElem?_left,
    haligned.length_eq ▸ haligned.symm.getElem?_left, haligned.size_eq,
    hdiffers.map_name_link hlink hlink', ?_, fun j m m' hj hm hm' => ?_,
    fun j m m' hm hm' => haligned.offset_eq hshape hshape' hm hm', fun i c c' hc hc' horigin => ?_⟩
  · have hvalues := congrArg (List.map Constant.value) hdeclared
    rw [List.map_map, List.map_map] at hvalues
    rw [declared_link, declared_link]
    exact hvalues
  · have hbare := haligned.bare_eq hj hm hm'
    have hsegment : m'.segmentBytes = m.segmentBytes := by
      rw [← m'.segmentBytes_bare, ← hbare, m.segmentBytes_bare]
    refine ⟨(congrArg Method.name hbare).symm, (congrArg Method.parameterCount hbare).symm,
      (congrArg Method.localCount hbare).symm, ?_⟩
    rw [hshape.segment_eq hm hlength hrender, hshape'.segment_eq hm' hlength' hrender', hsegment]
  · rw [← Array.getElem?_toList] at hc hc'
    have hpair := eq_of_map_eq_map (hdiffers.map_name_link hlink hlink') hc hc'
    have horigin' : c'.origin = .method := (congrArg Prod.snd hpair).symm.trans horigin
    rw [Array.getElem?_toList] at hc hc'
    obtain ⟨j, m, hm, hj, rfl⟩ := exists_method_of_constant hlink hc horigin
    obtain ⟨j', m', hm', hj', rfl⟩ := exists_method_of_constant hlink' hc' horigin'
    have hcount := congrArg List.length hdeclared
    rw [List.length_map, List.length_map] at hcount
    obtain rfl : j = j' := by omega
    obtain ⟨hbefore, hbehind⟩ := haligned.offset_eq hshape hshape' hm hm'
    refine ⟨j, m, hm, rfl, fun hle => ?_, fun hlt => ?_⟩
    · rw [Method.constant, Method.constant, hbefore hle]
    · have hsum := congrArg Int32.ofNat (hbehind hlt)
      rw [Int32.ofNat_add, Int32.ofNat_add] at hsum
      simp only [Method.constant]
      grind

def shortened : Bytes := Text.unlines
  [".main", "HALT", ".end-main", ".method f(a)", "loop: ILOAD a", "IFEQ loop", "IRETURN",
    ".end-method"]

def shortenedProgram : Program :=
  { constants := #[⟨"f", 1, 4, .method⟩]
    methods := #[
      { Method.entry 1 with
        instructions := #[{ operation := ⟨"HALT", 0xFF, []⟩, arguments := [], line := 2 }]
        size := 1 },
      { Method.named "f" ["a"] 4 with
        instructions := #[
          { operation := ⟨"ILOAD", 0x15, [.var]⟩, arguments := [.resolved 1], line := 5 },
          { operation := ⟨"IFEQ", 0x99, [.label]⟩, arguments := [.resolved (-2)], line := 6
            offset := 2 },
          { operation := ⟨"IRETURN", 0xAC, []⟩, arguments := [], line := 7, offset := 5 }]
        labels := #[⟨"loop", 5, 0, 0⟩]
        size := 6
        offset := 1 }] }

theorem exists_unaffected_shortened :
    sampleSetup.set = .standard ∧
    DifferInBody ((Source.Lines.ofBytes sample).lines.map Source.Line.text)
      ((Source.Lines.ofBytes shortened).lines.map Source.Line.text) 1 ∧
    (run sampleSetup sample).result = .ok sampleProgram ∧
    (run sampleSetup shortened).result = .ok shortenedProgram ∧
    (run sampleSetup sample).errors = 0 ∧ (run sampleSetup shortened).errors = 0 ∧
    ∃ bytes bytes', (sampleProgram.render false true).result = .ok bytes ∧
      (shortenedProgram.render false true).result = .ok bytes' ∧
      ∃ k edited edited', edited.line = 1 ∧ edited'.line = 1 ∧ edited'.name = edited.name ∧
        Unaffected k edited edited' sampleProgram shortenedProgram bytes bytes' := by
  have hdiffer : DifferInBody ((Source.Lines.ofBytes sample).lines.map Source.Line.text)
      ((Source.Lines.ofBytes shortened).lines.map Source.Line.text) 1 :=
    @DifferInBody.intro _ _ _ []
      [".var", "v", ".end-var", "WIDE", "ISTORE v", "INVOKEVIRTUAL f", "HALT"] ["HALT"]
      [".method f(a)", "loop: ILOAD a", "IFEQ loop", "IRETURN", ".end-method"] mainOpening .main
      (by decide) (by decide) (by decide) (by decide)
      (by decide) rfl
  obtain ⟨hrun, herrors⟩ : (run sampleSetup shortened).result = .ok shortenedProgram ∧
      (run sampleSetup shortened).errors = 0 := by decide +kernel
  have hrender : ∃ bytes, (shortenedProgram.render false true).result = .ok bytes := by
    have hfailure : (shortenedProgram.render false true).failure = none := by decide
    exact ⟨_, by rw [Output.result, hfailure]⟩
  obtain ⟨bytes', hbytes'⟩ := hrender
  exact ⟨rfl, hdiffer, run_sample, hrun, errors_sample, herrors, _, bytes', render_sample, hbytes',
    exists_unaffected_of_run rfl hdiffer run_sample hrun errors_sample herrors render_sample
      hbytes'⟩

end Assembly

end IjvmAsm
