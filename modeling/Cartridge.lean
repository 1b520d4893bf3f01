import Cartridge.Bench.Probe
import Cartridge.Bench.Round
import Cartridge.Main
import Cartridge.Png.Contents
import Cartridge.Proofs.Dialog.Dumped
import Cartridge.Proofs.Dialog.Order
import Cartridge.Proofs.Dialog.Progress
import Cartridge.Proofs.Metasprite.Closed
import Cartridge.Proofs.Palette
import Cartridge.Proofs.Picture.Blocks
import Cartridge.Proofs.Png.Accepted
import Cartridge.Proofs.Png.Blocks
import Cartridge.Proofs.Png.Container
import Cartridge.Proofs.Png.Converted
import Cartridge.Proofs.Png.Formats
import Cartridge.Proofs.PointerList.Versions
import Cartridge.Proofs.Tile.Condense
import Cartridge.Proofs.Tile.Interleave
import Cartridge.Proofs.Tilemap.Closed
import Cartridge.Proofs.Tilemap.Longest
import Cartridge.Proofs.Tilemap.Runs
import Cartridge.Proofs.Tilemap.Texts
import Cartridge.Proofs.Tileset.Assembled
import Cartridge.Proofs.Tileset.Exact
import Cartridge.Proofs.Tileset.Parts
import Cartridge.Workload
