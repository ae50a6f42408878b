import Gdpfs.FigTree.Edge
import Gdpfs.FigTree.Partly
import Gdpfs.FigTree.Incremental
import Gdpfs.FigTree.Pruned
import Gdpfs.FigTree.SharedPath
import Gdpfs.File.Size
import Gdpfs.File.Turns
import Gdpfs.File.Sections
import Gdpfs.Table.Safety
import Gdpfs.Table.Orphans
import Gdpfs.Table.Handles
import Gdpfs.Log.Precreate
import Gdpfs.Log.EntCache
import Gdpfs.File.Replay
import Gdpfs.Dir.Reports
import Gdpfs.Dir.Names
import Gdpfs.Dir.Balance
import Gdpfs.Dir.Refine
import Gdpfs.Dir.Resolve
import Gdpfs.Dir.Listing
import Gdpfs.Bitmap.Bounds
import Gdpfs.Bitmap.Readers
import Gdpfs.FigTree.Height
import Gdpfs.File.Life
import Gdpfs.File.BitmapCache
import Gdpfs.Table.Linked
import Gdpfs.Table.Kept
import Gdpfs.Log.Served
import Gdpfs.List.Sort
import Gdpfs.List.Rebuild
