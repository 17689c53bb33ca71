import CallGraph.Resolve.Basic

/-!
# What the log tells about resolving a call

At the most talkative log level every stage of resolving a call reports what it looked at. The
lines are a function of the query alone: they follow the stages in their order, up to the stage
that answers or fails, and have no part in the answer.
-/

namespace CallGraph

namespace Target

/-- The name of the type of a target. -/
def typeName : Target → String
  | .name _ => "str"
  | .call _ => "Call"
  | .table _ => "dict"
  | .node _ => "Node"
  | .group _ => "Group"
  | .value held => held.typeName

end Target

namespace Query

/-- A line of the main search. -/
def searchLine (text : String) : String :=
  "[_find_link_for_call] " ++ text

/-- A line of the search by signature. -/
def signatureLine (text : String) : String :=
  "[_find_library_node_by_signature] " ++ text

/-- A line of the search through a variable. -/
def instanceLine (text : String) : String :=
  "[_find_library_node_from_variable] " ++ text

/-- The token of a node and that of its parent. -/
def tokenAndParent (query : Query) (node : NodeId) : String :=
  (query.graph.node node).token ++ " parent=" ++ Text.orNone (query.graph.parentToken? node)

/-- The tokens of some nodes as a list. -/
def tokens (query : Query) (nodes : List NodeId) : String :=
  Text.quotedList (nodes.map fun node => (query.graph.node node).token)

/-- The candidates with the token of the call, with what they are compared by. -/
def candidateList (query : Query) : String :=
  Text.bracketed <| (query.sameToken query.candidates).map fun id =>
    let node := query.graph.node id
    let parent :=
      match query.graph.parentToken? id with
      | some token => Text.quoted token
      | none => "None"
    "(" ++ Text.quoted node.token ++ ", " ++ parent ++ ", " ++ Text.quotedList node.importTokens
      ++ ", " ++ Text.truth node.isLibrary ++ ")"

/-- Whether the log looks at this call more closely. -/
def isWatched (query : Query) : Bool :=
  query.call.token == "add_mutually_exclusive_group"

/-- The owner, whether the call has one, and whether it is a library call. -/
def ownerFacts (query : Query) : String :=
  "owner_token=" ++ Text.orNone query.call.owner ++ " is_attr=" ++ Text.truth query.call.isMember
    ++ " is_library=" ++ Text.truth query.call.isLibrary

/-- The lines at the start. -/
def startTrace (query : Query) : List String :=
  let call := query.call
  let token := (query.graph.node query.caller).token
  searchLine ("呼び出しチェック開始: node_a.token=" ++ token ++ ", call.to_string()=" ++ call.text
      ++ ", call.owner_token=" ++ Text.orNone call.owner ++ ", call.token=" ++ call.token
      ++ ", call.is_attr()=" ++ Text.truth call.isMember
      ++ ", call.is_library=" ++ Text.truth call.isLibrary)
    :: if query.isWatched then
        [searchLine ("TARGET: checking add_mutually_exclusive_group for node " ++ token ++ ". call."
          ++ query.ownerFacts)]
      else []

/-- The line for a stage that found a node or several; `one` and `several` are its words. -/
def foundTrace (query : Query) (one several : String) : Option Outcome → List String
  | some (.found node _) => [searchLine (one ++ query.tokenAndParent node)]
  | some (.ambiguous nodes _) => [searchLine (several ++ query.tokens nodes)]
  | _ => []

/-- The lines of stage 1. -/
def superTrace (query : Query) : List String :=
  query.foundTrace "super() によって継承側メソッドをマッチ: " "super() によって複数候補: "
    query.viaSuper?

/-- The lines of stage 2. -/
def selfTrace (query : Query) : List String :=
  match query.viaSelf?, query.callerClass? with
  | some outcome, some group =>
      if query.sameToken (query.graph.group group).nodes ≠ [] then
        query.foundTrace "同クラスによってマッチ: " "同クラス内で複数候補: " (some outcome)
      else
        match query.nestedClass? group with
        | some subgroup =>
            match outcome with
            | .found node _ =>
                [searchLine ("ネストクラスのコンストラクタによってマッチ: " ++ query.tokenAndParent node)]
            | _ =>
                [searchLine ("合成コンストラクタを作成: __init__ parent="
                  ++ (query.graph.group subgroup).token)]
        | none =>
            query.foundTrace "継承によってマッチ: " "継承候補が複数見つかりました: " (some outcome)
  | _, _ => []

/-- The lines of the search by signature. -/
def signatureTrace (query : Query) : List String :=
  match libraryOwner? query.call with
  | none => []
  | some owner =>
      let signature := Dotted.join [owner, query.call.token]
      let listed :=
        signatureLine ("lib_signature=" ++ signature ++ " module_name=" ++ Dotted.first owner
          ++ " candidates=" ++ query.candidateList)
      let watched :=
        if query.isWatched then
          [signatureLine ("TARGET CALL: " ++ query.ownerFacts ++ " lib_signature=" ++ signature)]
        else []
      let last :=
        match query.bySignature? with
        | some node =>
            let how :=
              if (query.graph.node node).importTokens.contains signature then "import_tokens"
              else "parent token"
            signatureLine ("matched by " ++ how ++ ": " ++ query.tokenAndParent node)
        | none => signatureLine ("no match found for " ++ signature)
      listed :: watched ++ [last]

/-- The lines of stage 4. -/
def unknownOwnerTrace (query : Query) : List String :=
  match query.viaUnknownOwner? with
  | some (.found node _) =>
      [searchLine ("heuristic: UNKNOWN owner resolved via super to " ++ query.tokenAndParent node)]
  | _ => []

/-- The lines of the search through one variable. -/
def bindingTrace (query : Query) (binding : Binding) : List String :=
  match binding.target with
  | .call call =>
      match libraryCall? binding with
      | none =>
          [instanceLine ("var.points_toはライブラリ呼び出しではない: is_library="
            ++ Text.truth call.isLibrary ++ ", is_attr()=" ++ Text.truth call.isMember)]
      | some (_, owner) =>
          let package := Dotted.first owner
          let token := query.call.token
          let named := query.sameToken query.candidates
          let last :=
            match query.byInstance? binding with
            | some node => [instanceLine ("ライブラリノードが見つかりました: " ++ query.tokenAndParent node)]
            | none =>
                (if query.isWatched then
                  [instanceLine ("NO MATCH for token=" ++ token ++ ", var.token=" ++ binding.token
                    ++ ", lib_module_name=" ++ package ++ ", candidates_tokens="
                    ++ query.tokens named)]
                else [])
                  ++ [instanceLine ("ライブラリノードが見つかりませんでした: token=" ++ token ++ ", module="
                    ++ package)]
          instanceLine ("ライブラリモジュール名: " ++ package ++ ", 検索するメソッド名: " ++ token)
            :: instanceLine ("lib_module_name=" ++ package ++ " call.token=" ++ token
              ++ " candidates=" ++ query.candidateList)
            :: last
  | target => [instanceLine ("var.points_toはCallではない: " ++ target.typeName)]

/-- The lines of the search through the variables, up to the first that answers. -/
def bindingsTrace (query : Query) : List Binding → List String
  | [] => []
  | binding :: rest =>
      if query.call.owner = some binding.token then
        searchLine ("変数マッチ: var.token=" ++ binding.token ++ ", var.points_to型="
            ++ binding.target.typeName)
          :: query.bindingTrace binding
          ++ if (query.byInstance? binding).isSome then [] else bindingsTrace query rest
      else bindingsTrace query rest

/-- The lines of stage 5. -/
def instanceTrace (query : Query) (bindings : List Binding) : List String :=
  match query.call.namedOwner? with
  | none => []
  | some owner =>
      searchLine ("ライブラリインスタンス経由の呼び出しチェック: call.owner_token=" ++ owner
          ++ ", call.token=" ++ query.call.token)
        :: query.bindingsTrace bindings

/-- Whether the binding that decides stage 6 is looked up by signature. -/
def looksUpSignature (query : Query) : List Binding → Bool
  | [] => false
  | binding :: rest =>
      match query.graph.matchBinding query.call binding with
      | .error _ => false
      | .ok none => looksUpSignature query rest
      | .ok (some result) => result ≠ .marker unknownModule

/-- The lines of stage 9. -/
def directTrace (query : Query) : List String :=
  match query.byToken, query.namedClass? with
  | .ok ([], _), some group =>
      match query.constructorOf group with
      | .found node _ =>
          [searchLine ("Matched class constructor: " ++ query.tokenAndParent node)]
      | _ =>
          [searchLine ("Synthesized implicit constructor: __init__ parent="
            ++ (query.graph.group group).token)]
  | _, _ => []

/-- The lines of stages 5 to 9. -/
def lateTrace (query : Query) (bindings : List Binding) : List String :=
  query.instanceTrace bindings
    ++ if (query.viaInstance? bindings).isSome then []
      else if query.looksUpSignature bindings then query.signatureTrace
      else
        match query.viaBindings? bindings with
        | .ok none => if query.viaFactory?.isSome then [] else query.directTrace
        | _ => []

/-- The lines that the log has about resolving a call. -/
def trace (query : Query) : List String :=
  query.startTrace
    ++ query.superTrace
    ++ if query.viaSuper?.isSome then [] else
      query.selfTrace
      ++ if query.viaSelf?.isSome then [] else
        query.signatureTrace
        ++ if query.bySignature?.isSome then [] else
          query.unknownOwnerTrace
          ++ if query.viaUnknownOwner?.isSome then [] else
            match query.graph.visible query.caller query.call.line with
            | .ok bindings => query.lateTrace bindings
            | .error _ => []

end Query

end CallGraph
