namespace RegisterMachine.Text

def findFrom (pattern : List Char) (passed : Nat) : List Char → Option Nat
  | [] => if pattern.isEmpty then some passed else none
  | c :: rest =>
    if pattern.isPrefixOf (c :: rest) then some passed else findFrom pattern (passed + 1) rest

-- Position of the first occurrence at or after `start`; a start beyond the end is the end.
def indexOf? (text pattern : String) (start : Nat) : Option Nat :=
  let letters := text.toList
  findFrom pattern.toList (min start letters.length) (letters.drop start)

-- `skip` letters still belong to the last match; `piece` is read backwards.
def piecesFrom (pattern : List Char) : Nat → List Char → List Char → List (List Char)
  | _, piece, [] => [piece.reverse]
  | skip + 1, piece, _ :: rest => piecesFrom pattern skip piece rest
  | 0, piece, c :: rest =>
    if pattern.isPrefixOf (c :: rest) then
      piece.reverse :: piecesFrom pattern (pattern.length - 1) [] rest
    else piecesFrom pattern 0 (c :: piece) rest

def split (text pattern : String) : List String :=
  if pattern.isEmpty then text.toList.map String.singleton
  else (piecesFrom pattern.toList 0 [] text.toList).map String.ofList

-- The letters with each occurrence exchanged for the replacement; `skip` of them still belong to the
-- last match.
def replaceFrom (pattern replacement : List Char) : Nat → List Char → List Char
  | _, [] => []
  | skip + 1, _ :: rest => replaceFrom pattern replacement skip rest
  | 0, c :: rest =>
    if pattern.isPrefixOf (c :: rest) then
      replacement ++ replaceFrom pattern replacement (pattern.length - 1) rest
    else c :: replaceFrom pattern replacement 0 rest

def replace (text pattern replacement : String) : String :=
  String.ofList (replaceFrom pattern.toList replacement.toList 0 text.toList)

end RegisterMachine.Text
