import TreeFile.Pager.Basic

/-!
What the pages of a file hold, whether they are in the cache or not. Looking at a page in this
way changes nothing and cannot fail.
-/

namespace TreeFile

namespace Pager

def fileImage (p : Pager) (page : PageNo) : Bytes :=
  Bytes.resize (p.file.bytes.extract ((page - 1) * p.pageSize) (page * p.pageSize)) p.pageSize

def image (p : Pager) (page : PageNo) : Bytes :=
  if page > p.pageCount then .zeros p.pageSize
  else
    match p.cache[page]? with
    | some image => image.data
    | none => p.fileImage page

def images (p : Pager) : List Bytes :=
  (List.range p.pageCount).map fun i => p.image (i + 1)

end Pager

end TreeFile
